import FypOs.Fs.Boot
import FypOs.Fs.Ledger
import FypOs.Fs.Run
import Mathlib.Algebra.BigOperators.Fin
import Mathlib.Algebra.BigOperators.Pi
import Mathlib.Tactic.LinearCombination

/-!
# Fs — references and locks balance

Every reference to an entry of the inode table belongs to an open file or is the current directory of
a process, once a system call is over: what a call has got on its way, it has given back on every path
or has handed to a file or a process.

The load of a process is what the table counts beyond that: the references that no file and no other
process accounts for, the locks the process holds, and the transactions it has not ended.
-/

namespace FypOs.Fs

open Lib Prog Code Finset Sys Op Load Fixes

/-- The reference that an open file has. -/
def File.load (f : File) : Load :=
  if 0 < f.ref ∧ (f.type = .inode ∨ f.type = .device) then .ref f.ip else 0

/-- The reference that a process has. -/
def Task.load (task : Task) : Load := if task.used then .ref task.proc.cwd else 0

section

variable {P : Type} [DecidableEq P] [Fintype P]

/-- What the table counts beyond the references of the files and of the processes other than `p`. -/
def Sys.load (p : P) (t : Sys P) : Load :=
  t.fs.load - ∑ f, (t.ftable f).load - ∑ q ∈ univ.erase p, (t.tasks q).load +
    (t.tasks p).ops • .op

/-- Files that are not in use have no type. -/
def Sys.Closed (t : Sys P) : Prop := ∀ f, (t.ftable f).ref = 0 → (t.ftable f).type = .none

/-- What a part of a call of `p` does, from the load `a` to the load `b`. -/
structure Settled (p : P) (a b : Load) (t t' : Sys P) : Prop where
  closed : t'.Closed
  me : t'.fs.me = t.fs.me
  proc : (t'.tasks p).proc = (t.tasks p).proc
  used : (t'.tasks p).used = (t.tasks p).used
  load : t'.load p + a = t.load p + b

/-- The account of a process. -/
def ledger (p : P) : Accounts (Sys P) Load where
  Owns _ t := t.Closed
  Step := Settled p
  refl h := ⟨h, rfl, rfl, rfl, rfl⟩
  trans h₁ h₂ :=
    ⟨h₂.closed, h₂.me.trans h₁.me, h₂.proc.trans h₁.proc, h₂.used.trans h₁.used, by
      linear_combination h₁.load + h₂.load⟩
  frame c h := { h with load := by linear_combination h.load }
  weaken h := h
  next _ h := h.closed

/-- Process `p` performs `c` from the state `t`, and is taken from the load `a` to the load `b r`. -/
abbrev Settles {α : Type} (p : P) (a : Load) (c : Op α) (b : α → Load) (Q : α → Sys P → Prop)
    (t : Sys P) : Prop :=
  (ledger p).Does a (c.run (den p)) b Q (fun _ => True) t

/-! ### Rules -/

section

variable {α β : Type} {p : P} {a x : Load} {c c₁ c₂ : Op α} {k : α → Op β} {b y : α → Load}
  {d : β → Load} {Q Q' : α → Sys P → Prop} {R : β → Sys P → Prop} {t : Sys P} {i : Fin NINODE}
  {g : File → File}

lemma Settles.bind (hc : Settles p x c y Q t)
    (hk : ∀ r t1, Settled p x (y r) t t1 → Q r t1 → Settles p (a - x + y r) (k r) d R t1) :
    Settles p a (c >>= k) d R t := by
  rw [Settles, run_bind]
  exact Accounts.Does.next hc hk

lemma settles_pure {r : α} (h : a = b r) (hQ : Q r t) : Settles p a (pure r) b Q t :=
  Accounts.Does.pure h hQ

lemma settles_ite {e : Prop} [Decidable e] (h1 : e → Settles p a c₁ b Q t)
    (h2 : ¬ e → Settles p a c₂ b Q t) : Settles p a (if e then c₁ else c₂) b Q t := by
  rw [Settles, run_ite]
  exact Accounts.does_ite h1 h2

lemma settles_panic {msg : String} : Settles p a (panic msg) b Q t := fun _ => trivial

/-- The parts of a call that are functions of the file system. -/
lemma settles_fs {m : FsM α} (hrun : c.run (den p) = onFs m) (h : Costs a m b) :
    Settles p a c b (fun _ t' => t'.ftable = t.ftable) t := by
  intro ht
  rw [hrun, onFs, wp_zoom]
  refine (h t.fs).post fun r s' hs => ⟨⟨ht, hs.1, rfl, rfl, ?_⟩, rfl⟩
  have e : (t.setFs s').load p = t.load p + (s'.load - t.fs.load) := by
    simp only [load, setFs]
    abel
  rw [e]
  linear_combination hs.2

lemma settles_fields : Settles p 0 (fields i) (fun _ => 0) (fun _ t' => t' = t) t := by
  intro ht
  rw [run_fields, onFs, wp_zoom]
  exact ⟨(ledger p).refl ht, rfl⟩

lemma settles_me : Settles p 0 me (fun _ => 0) (fun r t' => r = t.fs.me ∧ t' = t) t := by
  intro ht
  rw [run_me, onFs, wp_zoom]
  exact ⟨(ledger p).refl ht, rfl, rfl⟩

/-! ### Processes and files -/

lemma load_setOps (k : Int) :
    (t.setTask p fun task => { task with ops := task.ops + k }).load p = t.load p + k • .op := by
  have hothers : ∀ q ∈ univ.erase p, ((t.setTask p fun task => { task with ops := task.ops + k }).tasks q).load =
        (t.tasks q).load := fun q hq => by
    rw [t.setTask_of_ne _ (ne_of_mem_erase hq)]
  simp only [Sys.load]
  rw [sum_congr rfl hothers]
  rw [t.setTask_self]
  simp only [Sys.setTask, add_smul]
  abel

lemma load_setFile (f : Fin NFILE) (g : File → File) :
    (t.setFile f g).load p + (g (t.ftable f)).load = t.load p + (t.ftable f).load := by
  have hsum : ∑ x, ((t.setFile f g).ftable x).load + (t.ftable f).load =
      ∑ x, (t.ftable x).load + (g (t.ftable f)).load := by
    have h1 := add_sum_erase univ (fun x => (t.ftable x).load) (mem_univ f)
    have h2 := add_sum_erase univ (fun x => ((t.setFile f g).ftable x).load) (mem_univ f)
    have h3 : ∑ x ∈ univ.erase f, ((t.setFile f g).ftable x).load = ∑ x ∈ univ.erase f, (t.ftable x).load := by
      refine sum_congr rfl fun x hx => ?_
      rw [t.setFile_of_ne _ (ne_of_mem_erase hx)]
    rw [h3, t.setFile_self] at h2
    linear_combination h1 - h2
  have e : (t.setFile f g).load p = t.load p + ∑ x, (t.ftable x).load - ∑ x, ((t.setFile f g).ftable x).load := by
    simp only [Sys.load, Sys.setFile]
    abel
  rw [e]
  linear_combination -hsum

omit [DecidableEq P] [Fintype P] in
lemma Sys.Closed.setFile {f : Fin NFILE} (h : t.Closed)
    (hg : (g (t.ftable f)).ref = 0 → (g (t.ftable f)).type = .none) : (t.setFile f g).Closed := by
  intro x hx
  by_cases hxf : x = f
  · subst hxf
    rw [t.setFile_self] at hx ⊢
    exact hg hx
  · rw [t.setFile_of_ne _ hxf] at hx ⊢
    exact h x hx

lemma settles_setFile (f : Fin NFILE) (hnone : (t.ftable f).load = 0)
    (hg : (g (t.ftable f)).ref = 0 → (g (t.ftable f)).type = .none) :
    Settles p (g (t.ftable f)).load (Op.setFile f g) (fun _ => 0) (fun _ _ => True) t := by
  intro ht
  rw [run_setFile]
  refine ⟨⟨ht.setFile hg, rfl, rfl, rfl, ?_⟩, trivial⟩
  rw [load_setFile, hnone]

lemma settles_beginOp : Settles p 0 beginOp (fun _ => .op) (fun _ t' => t'.ftable = t.ftable) t := by
  intro ht
  rw [run_beginOp]
  refine ⟨⟨ht, rfl, by rw [t.setTask_self], by rw [t.setTask_self], ?_⟩, rfl⟩
  rw [add_zero]
  exact (load_setOps 1).trans (by rw [one_zsmul])

lemma settles_endOp : Settles p .op endOp (fun _ => 0) (fun _ t' => t'.ftable = t.ftable) t := by
  intro ht
  rw [run_endOp]
  refine ⟨⟨ht, rfl, by rw [t.setTask_self], by rw [t.setTask_self], ?_⟩, rfl⟩
  refine (congrArg (· + op) (load_setOps (-1))).trans ?_
  rw [neg_one_zsmul, neg_add_cancel_right, add_zero]

lemma settles_fail : Settles p .op fail (fun _ => 0) (fun _ _ => True) t :=
  settles_endOp.bind fun _ _ _ _ => settles_pure (by simp) trivial

lemma settles_search {γ : Type} {body : α → Op (Option γ)}
    (h : ∀ x t, Settles p a (body x) (fun _ => a) (fun _ _ => True) t) (xs : List α) :
    Settles p a (Code.search body xs) (fun _ => a) (fun _ _ => True) t := by
  induction xs generalizing t with
  | nil => exact settles_pure rfl trivial
  | cons x xs ih =>
    refine (h x t).bind fun r t1 _ _ => ?_
    rw [sub_self, zero_add]
    cases r with
    | some c => exact settles_pure rfl trivial
    | none => exact ih

lemma settles_forEach {body : α → Op Unit}
    (h : ∀ x t, Settles p a (body x) (fun _ => a) (fun _ _ => True) t) (xs : List α) :
    Settles p a (Code.forEach body xs) (fun _ => a) (fun _ _ => True) t := by
  induction xs generalizing t with
  | nil => exact settles_pure rfl trivial
  | cons x xs ih =>
    refine (h x t).bind fun _ t1 _ _ => ?_
    rw [sub_self, zero_add]
    exact ih

/-! ### Link, unlink, mkdir, mknod -/

variable {dp ip : Fin NINODE}

lemma settles_ilock : Settles p 0 (Op.ilock i) (fun _ => .lock i)
    (fun _ t' => t'.ftable = t.ftable) t := settles_fs (run_ilock p i) ilock_pays

lemma settles_iunlock : Settles p (.lock i) (Op.iunlock i) (fun _ => 0)
    (fun _ t' => t'.ftable = t.ftable) t := settles_fs (run_iunlock p i) iunlock_pays

lemma settles_iput : Settles p (.ref i) (Op.iput i) (fun _ => 0)
    (fun _ t' => t'.ftable = t.ftable) t := settles_fs (run_iput p i) iput_pays

lemma settles_iunlockput : Settles p (.ref i + .lock i) (Op.iunlockput i) (fun _ => 0)
    (fun _ t' => t'.ftable = t.ftable) t := settles_fs (run_iunlockput p i) iunlockput_pays

lemma settles_addLink (n : Int16) : Settles p 0 (Op.addLink i n) (fun _ => 0)
    (fun _ t' => t'.ftable = t.ftable) t :=
  settles_fs (run_addLink p i n) (pays (fixes_editInode _))

lemma settles_namei (path : List UInt8) : Settles p 0 (Op.namei path) (fun r => r.elim 0 .ref)
    (fun _ t' => t'.ftable = t.ftable) t := settles_fs (run_namei p path) (namei_pays path)

lemma settles_nameiparent (path : List UInt8) : Settles p 0 (Op.nameiparent path) found
    (fun _ t' => t'.ftable = t.ftable) t :=
  settles_fs (run_nameiparent p path) (namex_pays path true)

lemma settles_dirlink (name : Name) (inum : Nat) : Settles p 0 (Op.dirlink i name inum)
    (fun _ => 0) (fun _ t' => t'.ftable = t.ftable) t :=
  settles_fs (run_dirlink p i name inum) (dirlink_pays name inum)

lemma settles_linkBad : Settles p (.ref ip + .op) (Op.linkBad ip) (fun _ => 0) (fun _ _ => True) t := by
  refine settles_ilock.bind fun _ _ _ _ => (settles_addLink _).bind fun _ _ _ _ => ?_
  exact settles_iunlockput.bind fun _ _ _ _ => settles_fail.last fun _ => by abel

lemma settles_linkEntry (new : List UInt8) :
    Settles p (.ref ip + .op) (Op.linkEntry ip new) (fun _ => 0) (fun _ _ => True) t := by
  refine (settles_nameiparent new).bind fun r _ _ _ => ?_
  cases r with
  | none => exact settles_linkBad.last fun _ => by simp [found]
  | some r =>
    refine settles_ilock.bind fun _ _ _ _ => settles_fields.bind fun q _ _ _ =>
      settles_fields.bind fun p' _ _ _ => ?_
    refine Settles.bind (x := 0) (y := fun _ => 0) (Q := fun _ _ => True) ?_ fun r _ _ _ => ?_
    · exact settles_ite (fun _ => settles_pure rfl trivial) fun _ =>
        (settles_dirlink _ _).post fun _ _ _ _ => trivial
    · refine settles_ite (fun _ => ?_) fun _ => ?_
      · refine settles_iunlockput.bind fun _ _ _ _ => settles_linkBad.last fun _ => ?_
        simp only [found, Option.elim_some]
        abel
      · refine settles_iunlockput.bind fun _ _ _ _ => settles_iput.bind fun _ _ _ _ =>
          settles_endOp.bind fun _ _ _ _ => settles_pure ?_ trivial
        simp only [found, Option.elim_some]
        abel

lemma settles_sysLink (old new : Option (List UInt8)) :
    Settles p 0 (Op.sysLink old new) (fun _ => 0) (fun _ _ => True) t := by
  rw [Op.sysLink]
  split
  · refine settles_beginOp.bind fun _ _ _ _ => (settles_namei _).bind fun r _ _ _ => ?_
    cases r with
    | none => exact settles_fail.last fun _ => by simp
    | some ip =>
      refine settles_ilock.bind fun _ _ _ _ => settles_fields.bind fun p' _ _ _ => ?_
      refine settles_ite (fun _ => ?_) fun _ => ?_
      · refine settles_iunlockput.bind fun _ _ _ _ => settles_fail.last fun _ => ?_
        simp only [Option.elim_some]
        abel
      · refine (settles_addLink 1).bind fun _ _ _ _ => settles_iunlock.bind fun _ _ _ _ =>
          (settles_linkEntry _).last fun _ => ?_
        simp only [Option.elim_some]
        abel
  · exact settles_pure rfl trivial

lemma settles_unlinkBad :
    Settles p (.ref dp + .lock dp + .op) (Op.unlinkBad dp) (fun _ => 0) (fun _ _ => True) t :=
  settles_iunlockput.bind fun _ _ _ _ => settles_fail.last fun _ => by abel

lemma settles_unlinkEntry (off : Nat) : Settles p (.both dp ip + .op) (Op.unlinkEntry dp ip off)
    (fun _ => 0) (fun _ _ => True) t := by
  refine (settles_fs (run_writeDirent p dp off _) (pays (a := 0) (fixes_writei _ _ _))).bind
    fun r _ _ _ => settles_ite (fun _ => settles_panic) fun _ => settles_fields.bind fun q _ _ _ => ?_
  refine Settles.bind (x := 0) (y := fun _ => 0) (Q := fun _ _ => True) ?_ fun _ _ _ _ => ?_
  · exact settles_ite (fun _ => (settles_addLink _).post fun _ _ _ _ => trivial) fun _ =>
      settles_pure rfl trivial
  · refine settles_iunlockput.bind fun _ _ _ _ => (settles_addLink _).bind fun _ _ _ _ =>
      settles_iunlockput.bind fun _ _ _ _ => settles_endOp.bind fun _ _ _ _ => settles_pure ?_ trivial
    rw [both]
    abel

lemma settles_sysUnlink (path : Option (List UInt8)) :
    Settles p 0 (Op.sysUnlink path) (fun _ => 0) (fun _ _ => True) t := by
  rw [Op.sysUnlink]
  split
  · exact settles_pure rfl trivial
  · refine settles_beginOp.bind fun _ _ _ _ => (settles_nameiparent _).bind fun r _ _ _ => ?_
    cases r with
    | none => exact settles_fail.last fun _ => by simp [Load.found]
    | some r =>
      have hbad {t1 : Sys P} : Settles p (0 - 0 + Load.op - 0 + Load.found (some r) - 0 + .lock r.1)
          (Op.unlinkBad r.1) (fun _ => 0) (fun _ _ => True) t1 := by
        refine settles_unlinkBad.last fun _ => ?_
        simp only [Load.found, Option.elim_some]
        abel
      refine settles_ilock.bind fun _ _ _ _ => settles_ite (fun _ => hbad) fun _ => ?_
      refine (settles_fs (run_dirlookup p _ _) (dirlookup_pays _)).bind fun found _ _ _ => ?_
      cases found with
      | none => exact hbad.last fun _ => by simp [Load.found]
      | some found =>
        refine settles_ilock.bind fun _ _ _ _ => settles_fields.bind fun q _ _ _ =>
          settles_ite (fun _ => settles_panic) fun _ => ?_
        refine Settles.bind (x := 0) (y := fun _ => 0) (Q := fun _ _ => True) ?_ fun e _ _ _ => ?_
        · refine settles_ite (fun _ => ?_) fun _ => settles_pure rfl trivial
          exact (settles_fs (run_isdirempty p _) (pays fixes_isdirempty)).post
            fun _ _ _ _ => trivial
        · refine settles_ite (fun _ => ?_) fun _ => ?_
          · refine (settles_unlinkEntry _).last fun _ => ?_
            simp only [Load.found, Load.both, Option.elim_some]
            abel
          · refine settles_iunlockput.bind fun _ _ _ _ => hbad.last fun _ => ?_
            simp only [Load.found, Option.elim_some]
            abel

lemma settles_make (path : Option (List UInt8)) (type major minor : Int16) :
    Settles p 0 (Op.make path type major minor) (fun _ => 0) (fun _ _ => True) t := by
  refine settles_beginOp.bind fun _ _ _ _ => ?_
  split
  · exact settles_fail.last fun _ => by simp
  · refine (settles_fs (run_create p _ _ _ _) (create_pays _ _ _ _)).bind fun r _ _ _ => ?_
    cases r with
    | none => exact settles_fail.last fun _ => by simp [locked]
    | some ip =>
      refine settles_iunlockput.bind fun _ _ _ _ => settles_endOp.bind fun _ _ _ _ =>
        settles_pure ?_ trivial
      simp only [locked, Option.elim_some]
      abel

/-! ### Chdir and exec -/

/-- The new directory has been got, and the one that the process had has been given back. -/
lemma settles_chdirTo (path : Option (List UInt8)) :
    Settles p 0 (chdirTo path) (fun r => r.elim 0 fun ip => .ref ip - .ref t.fs.me.cwd)
      (fun _ _ => True) t := by
  refine settles_me.bind fun me t1 _ hme => settles_beginOp.bind fun _ _ _ _ => ?_
  obtain ⟨rfl, -⟩ := hme
  split
  · exact settles_endOp.bind fun _ _ _ _ => settles_pure (by simp) trivial
  · refine (settles_namei _).bind fun r _ _ _ => ?_
    cases r with
    | none => exact settles_endOp.bind fun _ _ _ _ => settles_pure (by simp) trivial
    | some ip =>
      refine settles_ilock.bind fun _ _ _ _ => settles_fields.bind fun q _ _ _ =>
        settles_ite (fun _ => ?_) fun _ => ?_
      · refine settles_iunlockput.bind fun _ _ _ _ => settles_endOp.bind fun _ _ _ _ =>
          settles_pure ?_ trivial
        simp only [Option.elim_some, Option.elim_none]
        abel
      · refine settles_iunlock.bind fun _ _ _ _ => settles_iput.bind fun _ _ _ _ =>
          settles_endOp.bind fun _ _ _ _ => settles_pure ?_ trivial
        simp only [Option.elim_some]
        abel

lemma settles_readi (dst : Nat → Bool) (off n : UInt32) : Settles p 0 (Op.readi i dst off n)
    (fun _ => 0) (fun _ t' => t'.ftable = t.ftable) t :=
  settles_fs (run_readi p i dst off n) (pays (fixes_readi dst off n))

lemma settles_loadseg (offset sz : Nat) :
    Settles p a (Op.loadseg i offset sz) (fun _ => a) (fun _ _ => True) t := by
  refine (settles_search (a := a) (fun n t => ?_) _).bind fun _ _ _ _ => settles_pure (by simp) trivial
  refine (settles_readi _ _ _).bind fun r _ _ _ => ?_
  exact settles_ite (fun _ => settles_pure (by simp) trivial) fun _ => settles_pure (by simp) trivial

lemma settles_loadProg (mem : Op.ExecMem) (phoff n : Nat) :
    Settles p a (Op.loadProg i mem phoff n) (fun _ => a) (fun _ _ => True) t := by
  rw [Op.loadProg]
  refine (settles_readi _ _ _).bind fun x _ _ _ => ?_
  obtain ⟨r, out⟩ := x
  rw [sub_zero, add_zero]
  dsimp only
  -- all but the last of the branches return an answer
  repeat' split
  all_goals first | exact settles_pure rfl trivial | exact settles_loadseg _ _

lemma settles_execLoad (mem : Op.ExecMem) :
    Settles p a (Op.execLoad i mem) (fun _ => a) (fun _ _ => True) t := by
  have hfalse {t1 : Sys P} :
      Settles p (a - 0 + 0) (pure false : Op Bool) (fun _ => a) (fun _ _ => True) t1 :=
    settles_pure (by simp) trivial
  refine (settles_readi _ _ _).bind fun r _ _ _ => settles_ite (fun _ => hfalse) fun _ =>
    settles_ite (fun _ => hfalse) fun _ => settles_ite (fun _ => hfalse) fun _ => ?_
  refine (settles_search (a := a) (fun n t => ?_) _).bind fun _ _ _ _ => settles_pure (by simp) trivial
  refine (settles_loadProg (a := a) mem _ _).bind fun r _ _ _ => ?_
  exact settles_ite (fun _ => settles_pure (by simp) trivial) fun _ => settles_pure (by simp) trivial

lemma settles_sysExec (path : Option (List UInt8)) (mem : Op.ExecMem) :
    Settles p 0 (Op.sysExec path mem) (fun _ => 0) (fun _ _ => True) t := by
  rw [sysExec]
  split
  · exact settles_pure rfl trivial
  · refine settles_beginOp.bind fun _ _ _ _ => (settles_namei _).bind fun r _ _ _ => ?_
    cases r with
    | none => exact settles_fail.last fun _ => by simp
    | some ip =>
      refine settles_ilock.bind fun _ _ _ _ => (settles_execLoad (a := 0) mem).bind fun ok _ _ _ =>
        settles_ite (fun _ => ?_) fun _ => ?_
      · refine settles_iunlockput.bind fun _ _ _ _ => settles_endOp.bind fun _ _ _ _ => ?_
        have h0 : (0 : Load) = 0 - 0 + op - 0 + (some ip).elim 0 ref - 0 + .lock ip - 0 +
            0 - (.ref ip + .lock ip) + 0 - .op + 0 := by
          simp only [Option.elim_some]
          abel
        split
        · exact settles_pure h0.symm trivial
        · exact settles_pure h0.symm trivial
      · refine settles_iunlockput.bind fun _ _ _ _ => settles_fail.last fun _ => ?_
        simp only [Option.elim_some]
        abel

/-! ### Open, close, dup, exit -/

lemma File.load_of_none {f : File} (h : f.type = .none) : f.load = 0 := by
  rw [File.load, if_neg]
  rintro ⟨-, e | e⟩
  · rw [h] at e
    cases e
  · rw [h] at e
    cases e

lemma settles_file (f : Fin NFILE) :
    Settles p 0 (file f) (fun _ => 0) (fun r t' => r = t.ftable f ∧ t' = t) t := by
  intro ht
  rw [run_file]
  exact ⟨(ledger p).refl ht, rfl, rfl⟩

lemma settles_ofile (fd : Fin NOFILE) : Settles p 0 (ofile fd) (fun _ => 0) (fun _ _ => True) t := by
  intro ht
  rw [run_ofile]
  exact ⟨(ledger p).refl ht, trivial⟩

lemma load_setOfile (g : (Fin NOFILE → Option (Fin NFILE)) → Fin NOFILE → Option (Fin NFILE)) :
    (t.setTask p fun task => { task with ofile := g task.ofile }).load p = t.load p := by
  have hothers : ∀ q ∈ univ.erase p,
      ((t.setTask p fun task => { task with ofile := g task.ofile }).tasks q).load =
        (t.tasks q).load := fun q hq => by
    rw [t.setTask_of_ne _ (ne_of_mem_erase hq)]
  simp only [load]
  rw [sum_congr rfl hothers, t.setTask_self]
  rfl

lemma settles_setOfile (fd : Fin NOFILE) (o : Option (Fin NFILE)) :
    Settles p 0 (setOfile fd o) (fun _ => 0) (fun _ t' => t'.ftable = t.ftable) t := by
  intro ht
  rw [run_setOfile]
  refine ⟨⟨ht, rfl, by rw [t.setTask_self], by rw [t.setTask_self], ?_⟩, rfl⟩
  exact congrArg (· + 0) (load_setOfile fun o' => Function.update o' fd o)

lemma settles_fdalloc (f : Fin NFILE) :
    Settles p 0 (Op.fdalloc f) (fun _ => 0) (fun _ t' => t'.ftable = t.ftable) t := by
  intro ht
  rw [run_fdalloc, fdalloc, wp_bind, getTask, wp_reads]
  split
  · refine ⟨⟨ht, rfl, by rw [t.setTask_self], by rw [t.setTask_self], ?_⟩, rfl⟩
    exact congrArg (· + 0) (load_setOfile fun o => Function.update o _ (some f))
  · exact ⟨(ledger p).refl ht, rfl⟩

lemma settles_filealloc : Settles p 0 Op.filealloc (fun _ => 0)
    (fun r t' => ∀ f, r = some f → (t'.ftable f).ref = 1 ∧ (t'.ftable f).type = .none) t := by
  intro ht
  rw [run_filealloc, filealloc, wp_bind, wp_reads]
  split
  · next f hf =>
    have h0 : (t.ftable f).ref = 0 := by simpa using List.find?_some hf
    have hnone := ht f h0
    refine ⟨⟨ht.setFile (by simp), rfl, rfl, rfl, ?_⟩, fun f' hf' => ?_⟩
    · have := load_setFile (p := p) (t := t) f fun file => { file with ref := 1 }
      rwa [File.load_of_none hnone, File.load_of_none (f := { t.ftable f with ref := 1 }) hnone] at this
    · cases hf'
      rw [t.setFile_self]
      exact ⟨rfl, hnone⟩
  · exact ⟨(ledger p).refl ht, nofun⟩

/-- The last reference to a file gives its inode to the process that closes it. -/
lemma settles_filedrop (f : Fin NFILE) : Settles p 0 (Op.filedrop f)
    (fun r => r.elim 0 File.load) (fun r _ => ∀ ff, r = some ff → 0 < ff.ref) t := by
  intro ht
  rw [run_filedrop, filedrop, wp_bind, getFile, wp_reads]
  refine wp_ite (fun _ => trivial) fun h1 => wp_ite (fun h2 => ?_) fun h2 => ?_
  · refine ⟨⟨ht.setFile fun h => ?_, rfl, rfl, rfl, ?_⟩, nofun⟩
    · exact absurd h (ne_of_gt h2)
    · have := load_setFile (p := p) (t := t) f fun file => { file with ref := file.ref - 1 }
      have hpos : 0 < (t.ftable f).ref := by omega
      have e : File.load { t.ftable f with ref := (t.ftable f).ref - 1 } = (t.ftable f).load := by
        simp only [File.load, hpos, gt_iff_lt.mp h2]
      rw [e] at this
      exact congrArg (· + 0) (add_right_cancel this)
  · refine ⟨⟨ht.setFile fun _ => rfl, rfl, rfl, rfl, ?_⟩, fun ff hff => ?_⟩
    · have := load_setFile (p := p) (t := t) f fun file => { file with ref := 0, type := .none }
      rwa [File.load_of_none (f := { t.ftable f with ref := 0, type := .none }) rfl] at this
    · cases hff
      omega

lemma settles_fileclose (f : Fin NFILE) : Settles p 0 (Op.fileclose f) (fun _ => 0) (fun _ _ => True) t := by
  refine (settles_filedrop f).bind fun r _ _ hr => ?_
  cases r with
  | none => exact settles_pure (by simp) trivial
  | some ff =>
    have hpos := hr ff rfl
    refine settles_ite (fun h => ?_) fun h => ?_
    · refine settles_beginOp.bind fun _ _ _ _ => settles_iput.bind fun _ _ _ _ =>
        (settles_endOp.post fun _ _ _ _ => trivial).last fun _ => ?_
      simp only [Option.elim_some, File.load, if_pos (And.intro hpos h)]
      abel
    · exact settles_pure (by simp [File.load, h]) trivial

lemma settles_openInode (path : List UInt8) (omode : UInt32) :
    Settles p 0 (Op.openInode path omode) locked (fun _ _ => True) t := by
  refine settles_ite (fun _ => ?_) fun _ => (settles_namei path).bind fun r _ _ _ => ?_
  · exact (settles_fs (run_create p _ _ _ _) (create_pays _ _ _ _)).post fun _ _ _ _ => trivial
  · cases r with
    | none => exact settles_pure (by simp [locked]) trivial
    | some ip =>
      refine settles_ilock.bind fun _ _ _ _ => settles_fields.bind fun q _ _ _ =>
        settles_ite (fun _ => ?_) fun _ => settles_pure ?_ trivial
      · refine settles_iunlockput.bind fun _ _ _ _ => settles_pure ?_ trivial
        simp only [locked, Option.elim_some, Option.elim_none]
        abel
      · simp only [locked, Option.elim_some]
        abel

lemma settles_openOffset (omode : UInt32) : Settles p 0 (Op.openOffset ip omode) (fun _ => 0)
    (fun _ t' => t'.ftable = t.ftable) t := by
  refine settles_fields.bind fun q t1 _ h1 => ?_
  subst h1
  refine Settles.bind (x := 0) (y := fun _ => 0) (Q := fun _ t' => t'.ftable = t1.ftable) ?_
    fun _ t2 _ h2 => settles_ite (fun _ => ?_) fun _ => settles_pure (by simp) h2
  · exact settles_ite (fun _ => settles_fs (run_itrunc p ip) (pays fixes_itrunc)) fun _ =>
      settles_pure rfl rfl
  · refine settles_fields.bind fun q t3 _ h3 => settles_pure (by simp) ?_
    rw [h3]
    exact h2

lemma settles_openFill (f : Fin NFILE) (omode : UInt32) (href : (t.ftable f).ref = 1)
    (htype : (t.ftable f).type = .none) :
    Settles p (.ref ip + .lock ip) (Op.openFill f ip omode) (fun _ => 0) (fun _ _ => True) t := by
  have hfill {t1 : Sys P} {g : File → File} (ht : t1.ftable = t.ftable)
      (hg : ∀ file, (g file).ref = file.ref ∧ ((g file).type = .inode ∨ (g file).type = .device) ∧
        (g file).ip = ip) :
      Settles p (.ref ip) (Op.setFile f g) (fun _ => 0) (fun _ _ => True) t1 := by
    obtain ⟨hr, hty, hip⟩ := hg (t1.ftable f)
    rw [ht, href] at hr
    have e : (g (t1.ftable f)).load = .ref ip := by
      rw [File.load, if_pos ⟨by rw [ht, hr]; decide, hty⟩, hip]
    rw [← e]
    refine settles_setFile f (File.load_of_none (by rw [ht, htype])) fun h => absurd h ?_
    rw [ht, hr]
    decide
  refine settles_fields.bind fun q t1 _ h1 => ?_
  subst h1
  refine Settles.bind (x := .ref ip) (y := fun _ => 0) (Q := fun _ _ => True) ?_ fun _ _ _ _ =>
    (settles_iunlock.post fun _ _ _ _ => trivial).last fun _ => by abel
  refine settles_ite (fun _ => hfill rfl fun _ => ⟨rfl, .inr rfl, rfl⟩) fun _ => ?_
  refine (settles_openOffset omode).bind fun off t2 _ h2 => ?_
  rw [sub_zero, add_zero]
  exact hfill h2 fun _ => ⟨rfl, .inl rfl, rfl⟩

lemma settles_openFail :
    Settles p (.ref ip + .lock ip + .op) (openFail ip) (fun _ => 0) (fun _ _ => True) t :=
  settles_iunlockput.bind fun _ _ _ _ => settles_fail.last fun _ => by abel

lemma settles_openFile (omode : UInt32) : Settles p (.ref ip + .lock ip + .op)
    (openFile ip omode) (fun _ => 0) (fun _ _ => True) t := by
  refine settles_fields.bind fun q _ _ _ => ?_
  rw [sub_zero, add_zero]
  refine settles_ite (fun _ => settles_openFail) fun _ => settles_filealloc.bind fun r t1 _ h1 => ?_
  rw [sub_zero, add_zero]
  cases r with
  | none => exact settles_openFail
  | some f =>
    obtain ⟨href, htype⟩ := h1 f rfl
    refine (settles_fdalloc f).bind fun r t2 _ h2 => ?_
    cases r with
    | none => exact (settles_fileclose f).bind fun _ _ _ _ => settles_openFail.last fun _ => by abel
    | some fd =>
      refine (settles_openFill f omode (by rw [h2, href]) (by rw [h2, htype])).bind
        fun _ _ _ _ => settles_endOp.bind fun _ _ _ _ => settles_pure ?_ trivial
      abel

lemma settles_sysOpen (path : Option (List UInt8)) (omode : UInt32) :
    Settles p 0 (sysOpen path omode) (fun _ => 0) (fun _ _ => True) t := by
  rw [sysOpen]
  split
  · exact settles_pure rfl trivial
  · refine settles_beginOp.bind fun _ _ _ _ => (settles_openInode _ omode).bind fun r _ _ _ => ?_
    cases r with
    | none => exact settles_fail.last fun _ => by simp [locked]
    | some ip =>
      refine (settles_openFile omode).last fun _ => ?_
      simp only [locked, Option.elim_some]
      abel

lemma settles_filedup (f : Fin NFILE) : Settles p 0 (Op.filedup f) (fun _ => 0) (fun _ _ => True) t := by
  intro ht
  rw [run_filedup, filedup, wp_bind, getFile, wp_reads]
  refine wp_ite (fun _ => trivial) fun h => ?_
  have hpos : 0 < (t.ftable f).ref := by omega
  refine ⟨⟨ht.setFile fun h0 => ?_, rfl, rfl, rfl, ?_⟩, trivial⟩
  · have h0 : (t.ftable f).ref + 1 = 0 := h0
    omega
  · have := load_setFile (p := p) (t := t) f fun file => { file with ref := file.ref + 1 }
    have e : File.load { t.ftable f with ref := (t.ftable f).ref + 1 } = (t.ftable f).load := by
      have hpos' : 0 < (t.ftable f).ref + 1 := by omega
      simp only [File.load, hpos, hpos']
    rw [e] at this
    exact congrArg (· + 0) (add_right_cancel this)

lemma settles_sysDup (fd : Fin NOFILE) : Settles p 0 (sysDup fd) (fun _ => 0) (fun _ _ => True) t := by
  refine (settles_ofile fd).bind fun r _ _ _ => ?_
  cases r with
  | none => exact settles_pure (by simp) trivial
  | some f =>
    refine (settles_fdalloc f).bind fun r _ _ _ => ?_
    cases r with
    | none => exact settles_pure (by simp) trivial
    | some fd => exact (settles_filedup f).bind fun _ _ _ _ => settles_pure (by simp) trivial

lemma settles_sysClose (fd : Fin NOFILE) : Settles p 0 (Op.sysClose fd) (fun _ => 0) (fun _ _ => True) t := by
  refine (settles_ofile fd).bind fun r _ _ _ => ?_
  cases r with
  | none => exact settles_pure (by simp) trivial
  | some f =>
    refine (settles_setOfile fd none).bind fun _ _ _ _ => (settles_fileclose f).bind fun _ _ _ _ => ?_
    exact settles_pure (by simp) trivial

lemma settles_exitFiles : Settles p (.ref t.fs.me.cwd) exitFiles (fun _ => 0) (fun _ _ => True) t := by
  refine settles_me.bind fun me t1 _ hme => ?_
  obtain ⟨rfl, -⟩ := hme
  refine (settles_forEach (a := 0) (fun fd t => ?_) _).bind fun _ _ _ _ =>
    settles_beginOp.bind fun _ _ _ _ => settles_iput.bind fun _ _ _ _ =>
      (settles_endOp.post fun _ _ _ _ => trivial).last fun _ => by abel
  refine (settles_ofile fd).bind fun r _ _ _ => ?_
  cases r with
  | none => exact settles_pure (by simp) trivial
  | some f =>
    refine (settles_fileclose f).bind fun _ _ _ _ =>
      ((settles_setOfile fd none).post fun _ _ _ _ => trivial).last fun _ => by simp

/-! ### Read and write -/

lemma settles_moveOff (f : Fin NFILE) (k : UInt32) :
    Settles p 0 (Op.setFile f fun fl => { fl with off := fl.off + k }) (fun _ => 0)
      (fun _ _ => True) t := by
  intro ht
  rw [run_setFile]
  refine ⟨⟨ht.setFile fun h => ht f h, rfl, rfl, rfl, ?_⟩, trivial⟩
  have := load_setFile (p := p) (t := t) f fun fl => { fl with off := fl.off + k }
  exact congrArg (· + 0) (add_right_cancel this)

lemma settles_fileread (f : Fin NFILE) (dst : Nat → Bool) (n : UInt32) (drv : Op.Drivers) :
    Settles p 0 (fileread f dst n drv) (fun _ => 0) (fun _ _ => True) t := by
  refine (settles_file f).bind fun fl t1 _ _ => settles_ite (fun _ => ?_) fun _ => ?_
  · exact settles_pure (by simp) trivial
  · cases fl.type with
    | pipe | device => exact settles_pure (by simp) trivial
    | none => exact settles_panic
    | inode =>
      refine (settles_file f).bind fun fl t2 _ h2 => settles_ilock.bind fun _ t3 _ h3 =>
        (settles_file f).bind fun fl' t4 _ h4 => (settles_readi _ _ _).bind fun r _ _ _ => ?_
      have hip : fl' = fl := by rw [h4.1, h3, h2.2, h2.1]
      subst hip
      refine Settles.bind (x := 0) (y := fun _ => 0) (Q := fun _ _ => True) ?_ fun _ _ _ _ =>
        settles_iunlock.bind fun _ _ _ _ => settles_pure (by abel) trivial
      exact settles_ite (fun _ => settles_moveOff f _) fun _ => settles_pure rfl trivial

lemma settles_filewriteRound (f : Fin NFILE) (src : Nat → Option UInt8) (i n1 : Nat) :
    Settles p 0 (Op.filewriteRound f src i n1) (fun _ => 0) (fun _ _ => True) t := by
  refine settles_beginOp.bind fun _ _ _ _ => (settles_file f).bind fun fl t2 _ h2 =>
    settles_ilock.bind fun _ t3 _ h3 => (settles_file f).bind fun fl' t4 _ h4 => ?_
  have hip : fl' = fl := by rw [h4.1, h3, h2.2, h2.1]
  subst hip
  refine (settles_fs (run_writei p _ _ _ _) (pays (a := 0) (fixes_writei _ _ _))).bind
    fun r _ _ _ => Settles.bind (x := 0) (y := fun _ => 0) (Q := fun _ _ => True) ?_ fun _ _ _ _ =>
    settles_iunlock.bind fun _ _ _ _ => settles_endOp.bind fun _ _ _ _ => settles_pure (by abel) trivial
  exact settles_ite (fun _ => settles_moveOff f _) fun _ => settles_pure rfl trivial

lemma settles_filewriteLoop (f : Fin NFILE) (src : Nat → Option UInt8) (n fuel i : Nat) :
    Settles p 0 (Op.filewriteLoop f src n fuel i) (fun _ => 0) (fun _ _ => True) t := by
  induction fuel generalizing t i with
  | zero => exact settles_pure rfl trivial
  | succ fuel ih =>
    refine settles_ite (fun _ => ?_) fun _ => settles_pure rfl trivial
    refine (settles_filewriteRound f src i _).bind fun r _ _ _ => ?_
    rw [sub_zero, add_zero]
    exact settles_ite (fun _ => settles_pure rfl trivial) fun _ => ih _

lemma settles_filewrite (f : Fin NFILE) (src : Nat → Option UInt8) (n : Int) (drv : Op.Drivers) :
    Settles p 0 (filewrite f src n drv) (fun _ => 0) (fun _ _ => True) t := by
  refine (settles_file f).bind fun fl t1 _ _ => settles_ite (fun _ => ?_) fun _ => ?_
  · exact settles_pure (by simp) trivial
  · cases fl.type with
    | pipe | device => exact settles_pure (by simp) trivial
    | none => exact settles_panic
    | inode =>
      rw [sub_zero, add_zero]
      exact settles_ite (fun _ => settles_pure rfl trivial) fun _ =>
        settles_filewriteLoop _ _ _ _ _

lemma settles_sysRead (fd : Fin NOFILE) (dst : Nat → Bool) (n : UInt32) (drv : Op.Drivers) :
    Settles p 0 (sysRead fd dst n drv) (fun _ => 0) (fun _ _ => True) t := by
  refine (settles_ofile fd).bind fun r _ _ _ => ?_
  rw [sub_zero, add_zero]
  cases r with
  | none => exact settles_pure rfl trivial
  | some f => exact settles_fileread f dst n drv

lemma settles_sysWrite (fd : Fin NOFILE) (src : Nat → Option UInt8) (n : Int) (drv : Op.Drivers) :
    Settles p 0 (sysWrite fd src n drv) (fun _ => 0) (fun _ _ => True) t := by
  refine (settles_ofile fd).bind fun r _ _ _ => ?_
  rw [sub_zero, add_zero]
  cases r with
  | none => exact settles_pure rfl trivial
  | some f => exact settles_filewrite f src n drv

end

/-! ### Processes at rest -/

variable {p : P} {t t' : Sys P}

/-- The open files that refer to an entry of the inode table. -/
def Sys.files (t : Sys P) (j : Fin NINODE) : Finset (Fin NFILE) :=
  univ.filter fun f => 0 < (t.ftable f).ref ∧
    ((t.ftable f).type = .inode ∨ (t.ftable f).type = .device) ∧ (t.ftable f).ip = j

/-- The processes whose current directory is an entry of the inode table. -/
def Sys.cwds (t : Sys P) (j : Fin NINODE) : Finset P :=
  univ.filter fun q => (t.tasks q).used = true ∧ (t.tasks q).proc.cwd = j

/-- Process `p` is in no system call. -/
structure AtRest (p : P) (t : Sys P) : Prop where
  /-- Every reference belongs to an open file or to a process. -/
  ref : ∀ j, (t.fs.itable j).ref = (t.files j).card + (t.cwds j).card
  lock : ∀ j, (t.fs.itable j).lock ≠ some (t.tasks p).proc.pid
  /-- `begin_op` and `end_op` have been matched. -/
  ops : (t.tasks p).ops = 0
  closed : t.Closed

lemma File.load_ref (f : File) (j : Fin NINODE) : f.load (.ref j) =
    if 0 < f.ref ∧ (f.type = .inode ∨ f.type = .device) ∧ f.ip = j then 1 else 0 := by
  rw [File.load]
  split
  · next h =>
    rw [ref_apply]
    exact if_congr ⟨fun e => ⟨h.1, h.2, e⟩, fun e => e.2.2⟩ rfl rfl
  · next h => exact (if_neg fun e => h ⟨e.1, e.2.1⟩).symm

lemma File.load_lock (f : File) (j : Fin NINODE) : f.load (.lock j) = 0 := by
  rw [File.load]
  split <;> rfl

lemma File.load_op (f : File) : f.load .op = 0 := by
  rw [File.load]
  split <;> rfl

lemma Task.load_ref (task : Task) (j : Fin NINODE) : task.load (.ref j) =
    if task.used = true ∧ task.proc.cwd = j then 1 else 0 := by
  rw [Task.load]
  split
  · next h =>
    rw [ref_apply]
    exact if_congr ⟨fun e => ⟨h, e⟩, fun e => e.2⟩ rfl rfl
  · next h => exact (if_neg fun e => h e.1).symm

lemma Task.load_lock (task : Task) (j : Fin NINODE) : task.load (.lock j) = 0 := by
  rw [Task.load]
  split <;> rfl

lemma Task.load_op (task : Task) : task.load .op = 0 := by
  rw [Task.load]
  split <;> rfl

lemma Sys.load_ref (j : Fin NINODE) : t.load p (.ref j) =
    (t.fs.itable j).ref - (t.files j).card - ((t.cwds j).card - (t.tasks p).load (.ref j)) := by
  have hfiles : (∑ f, (t.ftable f).load) (.ref j) = (t.files j).card := by
    rw [Finset.sum_apply, files, card_filter, Nat.cast_sum]
    refine sum_congr rfl fun f _ => ?_
    rw [File.load_ref]
    split <;> rfl
  have hcwds : (∑ q ∈ univ.erase p, (t.tasks q).load) (.ref j) = (t.cwds j).card - (t.tasks p).load (.ref j) := by
    rw [eq_sub_iff_add_eq, ← Pi.add_apply, sum_erase_add _ _ (mem_univ p),
      Finset.sum_apply, cwds, card_filter, Nat.cast_sum]
    refine sum_congr rfl fun q _ => ?_
    rw [Task.load_ref]
    split <;> rfl
  rw [load]
  simp only [Pi.add_apply, Pi.sub_apply, Pi.smul_apply, op_ref, smul_zero, add_zero]
  rw [hfiles, hcwds]
  rfl

lemma Sys.load_lock (j : Fin NINODE) : t.load p (.lock j) = t.fs.load (.lock j) := by
  rw [load]
  simp only [Pi.add_apply, Pi.sub_apply, Pi.smul_apply, op_lock, smul_zero, add_zero,
    Finset.sum_apply, File.load_lock, Task.load_lock, sum_const_zero, sub_zero]

lemma Sys.load_op : t.load p .op = (t.tasks p).ops := by
  rw [load]
  simp only [Pi.add_apply, Pi.sub_apply, Pi.smul_apply, op_op, smul_eq_mul, mul_one,
    Finset.sum_apply, File.load_op, Task.load_op, sum_const_zero, sub_zero, State.load,
    zero_add]

/-- A process is at rest when its load is its current directory. -/
lemma atRest_iff (hpid : t.fs.me.pid = (t.tasks p).proc.pid) :
    AtRest p t ↔ t.Closed ∧ t.load p = (t.tasks p).load := by
  constructor
  · intro h
    refine ⟨h.closed, funext fun x => ?_⟩
    cases x with
    | ref j =>
      rw [Sys.load_ref, h.ref j]
      ring
    | lock j =>
      rw [Sys.load_lock, Task.load_lock, State.load, if_neg]
      rw [hpid]
      exact h.lock j
    | op => rw [load_op, Task.load_op, h.ops]
  · rintro ⟨hclosed, hload⟩
    refine ⟨fun j => ?_, fun j hj => ?_, ?_, hclosed⟩
    · have := congrFun hload (.ref j)
      rw [Sys.load_ref] at this
      linear_combination this
    · have := congrFun hload (.lock j)
      rw [Sys.load_lock, Task.load_lock, State.load, if_pos (by rw [hj, hpid])] at this
      exact one_ne_zero this
    · have := congrFun hload .op
      rwa [load_op, Task.load_op] at this

lemma Settled.atRest {p : P} {t t' : Sys P} (h : Settled p 0 0 t t')
    (hrun : t.fs.me = (t.tasks p).proc) (hrest : AtRest p t) : AtRest p t' := by
  have hload := ((atRest_iff (by rw [hrun])).mp hrest).2
  refine (atRest_iff (by rw [h.me, hrun, h.proc])).mpr ⟨h.closed, ?_⟩
  have e : (t'.tasks p).load = (t.tasks p).load := by rw [Task.load, Task.load, h.proc, h.used]
  rw [e, ← hload]
  exact add_right_cancel h.load

lemma load_setTask_of_ne {np : P} (hne : np ≠ p) (g : Task → Task) :
    (t.setTask np g).load p + (g (t.tasks np)).load = t.load p + (t.tasks np).load := by
  have hmem : np ∈ univ.erase p := mem_erase.mpr ⟨hne, mem_univ np⟩
  have h1 := add_sum_erase (univ.erase p) (fun q => (t.tasks q).load) hmem
  have h2 := add_sum_erase (univ.erase p) (fun q => ((t.setTask np g).tasks q).load) hmem
  have h3 : ∑ q ∈ (univ.erase p).erase np, ((t.setTask np g).tasks q).load =
      ∑ q ∈ (univ.erase p).erase np, (t.tasks q).load := by
    refine sum_congr rfl fun q hq => ?_
    rw [t.setTask_of_ne _ (ne_of_mem_erase hq)]
  rw [h3, t.setTask_self] at h2
  have e : (t.setTask np g).load p = t.load p + ∑ q ∈ univ.erase p, (t.tasks q).load -
      ∑ q ∈ univ.erase p, ((t.setTask np g).tasks q).load := by
    simp only [load]
    rw [t.setTask_of_ne _ hne.symm]
    simp only [Sys.setTask]
    abel
  rw [e]
  linear_combination h2 - h1

/-- What a process keeps of itself does not count towards its load. -/
lemma load_setSelf (g : Task → Task) (hops : (g (t.tasks p)).ops = (t.tasks p).ops) :
    (t.setTask p g).load p = t.load p := by
  have hothers : ∀ q ∈ univ.erase p, ((t.setTask p g).tasks q).load = (t.tasks q).load := fun q hq => by
    rw [t.setTask_of_ne _ (ne_of_mem_erase hq)]
  simp only [load]
  rw [sum_congr rfl hothers, t.setTask_self, hops]
  rfl

/-- A process that has done its part can change what it keeps of itself by the difference. -/
lemma Settled.atRest_setSelf {a b : Load} {g : Task → Task} (h : Settled p a b t t')
    (hrun : t.fs.me = (t.tasks p).proc) (hrest : AtRest p t) (hops : (g (t'.tasks p)).ops = (t'.tasks p).ops)
    (hpid : (g (t'.tasks p)).proc.pid = (t'.tasks p).proc.pid)
    (hg : (g (t'.tasks p)).load + a = (t.tasks p).load + b) : AtRest p (t'.setTask p g) := by
  have hload := ((atRest_iff (by rw [hrun])).mp hrest).2
  refine (atRest_iff ?_).mpr ⟨h.closed, ?_⟩
  · rw [t'.setTask_self, hpid, h.proc, ← hrun, ← h.me]
    rfl
  · rw [load_setSelf _ hops, t'.setTask_self]
    linear_combination h.load + hload - hg

lemma sysChdir_atRest (path : Option (List UInt8)) (hrun : t.fs.me = (t.tasks p).proc)
    (hused : (t.tasks p).used = true) (hrest : AtRest p t) :
    wp ((sysChdir path).run (den p)) (fun _ => AtRest p) (fun _ => True) t := by
  rw [sysChdir, run_bind, wp_bind]
  refine (settles_chdirTo path hrest.closed).post fun r t1 h1 => ?_
  cases r with
  | none => exact h1.1.atRest hrun hrest
  | some ip =>
    rw [run_bind, wp_bind, run_setCwd]
    refine h1.1.atRest_setSelf hrun hrest rfl rfl ?_
    simp only [Task.load, h1.1.used, hused, if_true, Option.elim_some, hrun]
    abel

lemma exit_atRest (hrun : t.fs.me = (t.tasks p).proc) (hused : (t.tasks p).used = true)
    (hrest : AtRest p t) : wp (exit.run (den p)) (fun _ => AtRest p) (fun _ => True) t := by
  rw [exit, run_bind, wp_bind]
  refine (settles_exitFiles hrest.closed).post fun _ t1 h1 => ?_
  rw [run_bind, wp_bind, run_quit]
  refine h1.1.atRest_setSelf hrun hrest rfl rfl ?_
  simp only [Task.load, hused, Bool.false_eq_true, if_false, if_true, hrun]
  abel

/-- The child has the current directory of the parent. -/
lemma fork_settled (np : Option P) (uvmcopy : Bool) (pid : Nat) (hclosed : t.Closed)
    (hused : (t.tasks p).used = true) (hnp : ∀ q, np = some q → (t.tasks q).used = false) :
    wp (fork p np uvmcopy pid) (fun _ => Settled p 0 0 t) (fun _ => True) t := by
  cases np with
  | none => exact (ledger p).refl (a := 0) hclosed
  | some np =>
    have hne : np ≠ p := by
      rintro rfl
      rw [hnp np rfl] at hused
      cases hused
    refine wp_ite (fun _ => (ledger p).refl (a := 0) hclosed) fun _ => ?_
    rw [wp_bind, getTask, wp_reads, wp_bind]
    refine wp_forEach (fun _ t1 => Settled p 0 0 t t1 ∧ t1.tasks = t.tasks)
      ⟨(ledger p).refl hclosed, rfl⟩ (fun fd _ t1 h1 => ?_) fun t1 h1 => ?_
    · split
      · next f _ =>
        have hdup := settles_filedup (p := p) (t := t1) f h1.1.closed
        rw [run_filedup] at hdup
        have hfix : Fixes tasks (filedup f : SysM P Unit) :=
          fixes_reads.bind fun _ => fixes_ite fixes_panic (fixes_modify fun _ => rfl)
        exact (hdup.and (hfix t1)).post fun _ _ h2 =>
          ⟨(ledger p).trans h1.1 h2.1.1, h2.2.trans h1.2⟩
      · exact h1
    · have hdup := settles_fs (p := p) (t := t1)  (run_idup p (t.tasks p).proc.cwd) idup_pays h1.1.closed
      rw [run_idup, onFs, wp_zoom] at hdup
      rw [wp_bind, onFs, wp_zoom]
      refine hdup.post fun cwd fs' h2 => ?_
      have htask : ((t1.setFs fs').tasks np).load = 0 := by
        change (t1.tasks np).load = 0
        rw [h1.2, Task.load, hnp np rfl]
        rfl
      have hset := load_setTask_of_ne (t := t1.setFs fs') hne ((t.tasks p).child pid cwd)
      have hself := (t1.setFs fs').setTask_of_ne ((t.tasks p).child pid cwd) hne.symm
      refine ⟨h2.1.closed, h2.1.me.trans h1.1.me, ?_, ?_, ?_⟩
      · exact (congrArg Task.proc hself).trans (h2.1.proc.trans h1.1.proc)
      · exact (congrArg Task.used hself).trans (h2.1.used.trans h1.1.used)
      · rw [htask] at hset
        have h2 := h2.1.load
        have h1 := h1.1.load
        simp only [Task.load, Task.child, if_true] at hset
        linear_combination hset + h2 + h1

/-- What a call learns from the rest of the kernel is so: the process that `allocproc` has found is
not in use. -/
def SysCall.Fits (t : Sys P) : SysCall P → Prop
  | .fork np _ _ => ∀ q, np = some q → (t.tasks q).used = false
  | _ => True

/-- **References and locks balance.**  From any state in which a process is at rest, every system call
but `rename` that returns leaves it at rest: no lock of an inode is held, the transactions are matched,
and the reference count of each entry of the inode table is the number of open files and current
directories that refer to it. -/
theorem calls_balance (c : SysCall P) (hname : ∀ old new, c ≠ .rename old new) (hfits : c.Fits t)
    (hrun : t.fs.me = (t.tasks p).proc) (hused : (t.tasks p).used = true) (hrest : AtRest p t)
    (r : Int) (hreturn : c.perform p t = .ok (r, t')) : AtRest p t' := by
  suffices h : wp (c.perform p) (fun _ => AtRest p) (fun _ => True) t from h.ok hreturn
  have hsettles {c : Op Int} (h : Settles p 0 c (fun _ => 0) (fun _ _ => True) t) :
      wp (c.run (den p)) (fun _ => AtRest p) (fun _ => True) t :=
    (h hrest.closed).post fun _ _ hs => hs.1.atRest hrun hrest
  cases c with
  | «open» path omode => exact hsettles (settles_sysOpen path omode)
  | dup fd => exact hsettles (settles_sysDup fd)
  | read fd dst n drv => exact hsettles (settles_sysRead fd dst n drv)
  | write fd src n drv => exact hsettles (settles_sysWrite fd src n drv)
  | close fd => exact hsettles (settles_sysClose fd)
  | link old new => exact hsettles (settles_sysLink old new)
  | unlink path => exact hsettles (settles_sysUnlink path)
  | mkdir path | mknod path major minor => exact hsettles (settles_make path _ _ _)
  | chdir path => exact sysChdir_atRest path hrun hused hrest
  | rename old new => exact absurd rfl (hname old new)
  | exec path mem => exact hsettles (settles_sysExec path mem)
  | exit => exact exit_atRest hrun hused hrest
  | fork np uvmcopy pid =>
    exact (fork_settled np uvmcopy pid hrest.closed hused hfits).post fun _ _ hs =>
      hs.atRest hrun hrest

end

/-! ### A small system -/

lemma boot_atRest : AtRest 0 boot :=
  ⟨by decide +kernel, by decide +kernel, rfl, fun _ _ => rfl⟩

/-- A file is made and opened; the process is at rest, and the file has the reference. -/
theorem calls_balance_open : ∃ t', (SysCall.open (some [97]) (O_CREATE ||| O_RDWR)).perform 0 boot =
    .ok (0, t') ∧ (t'.fs.itable 1).ref = 1 ∧ AtRest 0 t' := by
  obtain ⟨t', hs, href⟩ : ∃ t', (SysCall.open (some [97]) (O_CREATE ||| O_RDWR)).perform 0 boot = .ok (0, t') ∧
      (t'.fs.itable 1).ref = 1 := Outcome.ok_of_test (by decide +kernel)
  exact ⟨t', hs, href, calls_balance (SysCall.open (some [97]) (O_CREATE ||| O_RDWR)) nofun trivial rfl
    rfl boot_atRest _ hs⟩

end FypOs.Fs
