import FypOs.Fs.System

/-!
# Fs — what the system calls do

Every system call that returns leads from a good system to a good system, and does to the tree of files
what it was asked to, or nothing: `perform_good`.
-/

namespace FypOs.Fs

open Lib Prog Code

/-- What a call is asked to do to the tree. -/
def SysCall.request {P : Type} : SysCall P → Request
  | .open path omode => (argstr path MAXPATH).elim .quiet fun path => openRequest path omode
  | .link old new =>
    match argstr old MAXPATH, argstr new MAXPATH with
    | some old, some new => .link old new
    | _, _ => .quiet
  | .unlink path => (argstr path MAXPATH).elim .quiet .unlink
  | .mkdir path => (argstr path MAXPATH).elim .quiet (.make · T_DIR)
  | .mknod path _ _ => (argstr path MAXPATH).elim .quiet (.make · T_DEVICE)
  | .rename old new =>
    match argstr old DIRSIZ, argstr new DIRSIZ with
    | some old, some new => .rename old new
    | _, _ => .quiet
  | _ => .quiet

section

variable {P : Type} [DecidableEq P] [Fintype P] {p : P} {a : Hold} {t t' : Sys P} {req : Request}
  {m : FsM Int} {c : Op Int}

/-- A call of `p` has led from `t` to `t'`. -/
structure Served (p : P) (t t' : Sys P) (req : Request) : Prop where
  good : Good p (t'.tasks p).hold t'
  serves : Serves t.fs t'.fs req
  sb : t'.fs.sb = t.fs.sb

lemma Task.hold_congr {task task' : Task} (hproc : task'.proc = task.proc)
    (hused : task'.used = task.used) : task'.hold = task.hold := by
  rw [Task.hold, Task.hold, hproc, hused]

/-! ### Calls that give back what they take -/

/-- The current directory of the process is in the table. -/
lemma Good.cwd (hgood : Good p (t.tasks p).hold t) (hrun : t.fs.me = (t.tasks p).proc)
    (hused : (t.tasks p).used = true) : 0 < (t.fs.itable t.fs.me.cwd).ref := by
  rw [Task.hold, if_pos hused] at hgood
  rw [hrun]
  exact Good.ref_pos (a := 0) (by rw [add_zero]; exact hgood)

lemma Good.covers_zero (hgood : Good p a t) : Covers 0 t.fs :=
  Covers.weaken (c := t.hold p + a) (by rw [add_zero]; exact hgood.covers)

section

variable (hgood : Good p (t.tasks p).hold t)

include hgood

lemma served_of_holds (h : Holds (fun _ => True) p 0 c (fun _ => 0) (fun _ t' => Serves t.fs t'.fs req) t) :
    wp (c.run (den p)) (fun _ t' => Served p t t' req) (fun _ => True) t := by
  refine (h.frame (add_zero _).symm (fun _ => (add_zero _).symm) hgood).post fun r t' hs => ?_
  obtain ⟨hk, hserves⟩ := hs
  have hhold : (t'.tasks p).hold = (t.tasks p).hold := Task.hold_congr hk.proc hk.used
  exact ⟨hhold ▸ (holdings _ p).next hgood hk, hserves, hk.keeps.sb⟩

lemma served_of_calm (h : Holds (fun _ => True) p 0 c (fun _ => 0) (fun _ t' => Calm t.fs t'.fs) t) :
    wp (c.run (den p)) (fun _ t' => Served p t t' .quiet) (fun _ => True) t :=
  served_of_holds hgood (h.post fun _ _ _ hc => hc.serves _)

lemma served_pure {r : Int} : wp (pure r : SysM P Int) (fun _ t' => Served p t t' req) (fun _ => True) t :=
  ⟨hgood, (Calm.refl _).serves _, rfl⟩

/-- A transaction on the file system, which may leave references behind. -/
lemma served_transact (h : wp m (fun _ s' => (∃ c, Keeps (fun _ => True) 0 c t.fs s') ∧
      (t.fs.sb.ninodes ≤ 2 ^ 16 → Meets t.fs s' req)) (fun _ => True) t.fs) :
    wp (transact p m) (fun _ t' => Served p t t' req) (fun _ => True) t := by
  rw [transact, closing]
  simp only [setTask, wp_bind, wp_modify, onFs, wp_zoom, wp_pure]
  refine h.post fun r s' hs => ?_
  obtain ⟨⟨c, hk⟩, hm⟩ := hs
  have hfree : Good p 0 t := Good.weaken (c := (t.tasks p).hold) (by rwa [add_zero])
  refine ⟨⟨?_, hgood.idle, fun f hf => hfree.keeps_file hk hf⟩, hk.serves rfl hm, hk.sb⟩
  have hcov := (hk.frame (t.hold p + (t.tasks p).hold)).covers (by rw [add_zero]; exact hgood.covers)
  have hhold : (Sys.setTask ((t.setTask p fun task => { task with ops := task.ops + 1 }).setFs s') p
      fun task => { task with ops := task.ops - 1 }).hold p = t.hold p := by
    have hbegin := hold_setTask (p := p) (t := t) fun task => { task with ops := task.ops + 1 }
    rw [hold_setTask]
    exact hbegin
  have htask : ((Sys.setTask ((t.setTask p fun task => { task with ops := task.ops + 1 }).setFs s') p
      fun task => { task with ops := task.ops - 1 }).tasks p).hold = (t.tasks p).hold := by
    have hbegin := congrArg (fun task => (task.proc, task.used))
      (t.setTask_self (p := p) fun task => { task with ops := task.ops + 1 })
    rw [Sys.setTask_self]
    exact Task.hold_congr (congrArg Prod.fst hbegin) (congrArg Prod.snd hbegin)
  refine Covers.weaken (c := c) ?_
  rw [hhold, htask, add_comm]
  exact hcov

lemma served_does (h : Does (fun _ => True) 0 m (fun _ => 0) (fun _ s' => t.fs.sb.ninodes ≤ 2 ^ 16 →
      Meets t.fs s' req) t.fs) :
    wp (transact p m) (fun _ t' => Served p t t' req) (fun _ => True) t :=
  served_transact hgood (wp_mono (h hgood.covers_zero) (fun _ _ hs => ⟨⟨0, hs.1⟩, hs.2⟩)
    fun _ _ => trivial)

end

/-! ### Chdir and exit -/

lemma sysChdir_served (path : Option (List UInt8)) (hgood : Good p (t.tasks p).hold t)
    (hrun : t.fs.me = (t.tasks p).proc) (hused : (t.tasks p).used = true) :
    wp ((Op.sysChdir path).run (den p)) (fun _ t' => Served p t t' .quiet) (fun _ => True) t := by
  have hhold : (t.tasks p).hold = .ref t.fs.me.cwd := by rw [Task.hold, if_pos hused, hrun]
  rw [hhold] at hgood
  rw [Op.sysChdir, run_bind, wp_bind]
  refine (holds_chdirTo (X := fun _ => True) path hgood).post fun r t1 h1 => ?_
  obtain ⟨hk, hc⟩ := h1
  have hgood1 := (holdings _ p).next hgood hk
  cases r with
  | none =>
    refine ⟨?_, hc.serves _, hk.keeps.sb⟩
    rw [Task.hold_congr hk.proc hk.used, hhold]
    exact hgood1
  | some ip =>
    rw [run_bind, wp_bind, run_setCwd]
    refine ⟨⟨?_, hgood1.idle, hgood1.files⟩, hc.serves _, hk.keeps.sb⟩
    have hself : ((t1.setTask p fun task => { task with proc := { task.proc with cwd := ip } }).tasks
        p).hold = .ref ip := by
      rw [t1.setTask_self, Task.hold]
      exact if_pos (hk.used.trans hused)
    rw [hself, hold_setTask]
    exact hgood1.covers

lemma exit_served (hgood : Good p (t.tasks p).hold t) (hrun : t.fs.me = (t.tasks p).proc)
    (hused : (t.tasks p).used = true) :
    wp (Op.exit.run (den p)) (fun _ t' => Served p t t' .quiet) (fun _ => True) t := by
  rw [Task.hold, if_pos hused, ← hrun] at hgood
  rw [Op.exit, run_bind, wp_bind]
  refine (holds_exitFiles (X := fun _ => True) hgood).post fun _ t1 h1 => ?_
  obtain ⟨hk, hc⟩ := h1
  have hgood1 := (holdings _ p).next hgood hk
  rw [run_bind, wp_bind, run_quit]
  refine ⟨⟨?_, hgood1.idle, hgood1.files⟩, hc.serves _, hk.keeps.sb⟩
  have hself : ((t1.setTask p fun task => { task with used := false }).tasks p).hold = 0 := by
    rw [t1.setTask_self]
    rfl
  rw [hself, hold_setTask]
  exact hgood1.covers

/-! ### All of them -/

/-- **What a system call does.**  From a good system, in which `p` is running, every call of `p` that
returns leads to a good system, and has done to the tree what it was asked to, or nothing. -/
lemma perform_good (c : SysCall P) (hfits : c.Fits t) (hrun : t.fs.me = (t.tasks p).proc)
    (hused : (t.tasks p).used = true) (hgood : Good p (t.tasks p).hold t) :
    wp (c.perform p) (fun _ t' => Served p t t' c.request) (fun _ => True) t := by
  have hcwd := hgood.cwd hrun hused
  cases c with
  | «open» path omode => exact served_of_holds hgood (holds_sysOpen path omode hcwd (.inr fun _ => trivial))
  | dup fd => exact served_of_calm hgood (holds_sysDup fd)
  | read fd dst n drv => exact served_of_calm hgood (holds_sysRead fd dst n drv)
  | write fd src n drv => exact served_of_calm hgood (holds_sysWrite fd src n drv fun _ => trivial)
  | close fd => exact served_of_calm hgood (holds_sysClose fd)
  | link old new =>
    rw [SysCall.perform, run_sysLink, SysCall.request]
    cases argstr old MAXPATH with
    | none => exact served_pure hgood
    | some old =>
      cases argstr new MAXPATH with
      | none => exact served_pure hgood
      | some new => exact served_does hgood (sysLink_does hcwd old new)
  | unlink path =>
    rw [SysCall.perform, run_sysUnlink, SysCall.request]
    cases argstr path MAXPATH with
    | none => exact served_pure hgood
    | some path =>
      exact served_transact hgood ((sysUnlink_does (fun _ _ => trivial) (fun _ => trivial) hcwd path
        hgood.covers_zero).post fun _ _ hs => ⟨⟨0, hs.1⟩, fun _ => hs.2⟩)
  | mkdir path =>
    rw [SysCall.perform, Op.sysMkdir, run_make, SysCall.request]
    cases argstr path MAXPATH with
    | none => exact served_does hgood (.pure rfl fun _ => .of_frees (.refl _) _)
    | some path =>
      exact served_does hgood ((make_does hcwd path _ _ _).post fun _ _ _ hs hsmall =>
        hs hsmall (by decide))
  | mknod path major minor =>
    rw [SysCall.perform, Op.sysMknod, run_make, SysCall.request]
    cases argstr path MAXPATH with
    | none => exact served_does hgood (.pure rfl fun _ => .of_frees (.refl _) _)
    | some path =>
      exact served_does hgood ((make_does hcwd path _ _ _).post fun _ _ _ hs hsmall =>
        hs hsmall (by decide))
  | chdir path => exact sysChdir_served path hgood hrun hused
  | rename old new =>
    rw [SysCall.perform, SysCall.request, Op.sysRename]
    cases argstr old DIRSIZ with
    | none => exact served_pure hgood
    | some old =>
      cases argstr new DIRSIZ with
      | none => exact served_pure hgood
      | some new =>
        change wp ((Op.rename old new).run (den p)) _ _ t
        rw [run_rename]
        exact served_transact hgood (wp_mono (rename_leaves hcwd old new hgood.covers_zero)
          (fun _ _ hs => hs) fun _ _ => trivial)
  | exec path mem => exact served_of_calm hgood (holds_sysExec path mem hcwd)
  | exit => exact exit_served hgood hrun hused
  | fork np uvmcopy pid =>
    rw [hrun] at hcwd
    refine (fork_kept (X := fun _ => True) np uvmcopy pid hgood hcwd hused hfits).post fun _ t' hs => ?_
    have hhold := Task.hold_congr hs.1.proc hs.1.used
    exact ⟨hhold ▸ (holdings _ p).next hgood hs.1, hs.2.serves _, hs.1.keeps.sb⟩

end

end FypOs.Fs
