import FypOs.Fs.Calls

/-!
# Fs — calls that are not interrupted

A function on directories or paths that is not interrupted does what the function over `State` of
that name does.
-/

namespace FypOs.Fs

open Lib Code

section

variable {P α β γ : Type}

@[simp] lemma onFs_pure (a : α) : (onFs (pure a : FsM α) : SysM P α) = pure a := rfl

@[simp] lemma onFs_bind (m : FsM α) (f : α → FsM β) :
    (onFs (m >>= f) : SysM P β) = onFs m >>= fun a => onFs (f a) := by
  funext t
  change Prog.zoom Sys.fs Sys.setFs (Prog.bind m f) t =
    Prog.bind (Prog.zoom Sys.fs Sys.setFs m) (fun a => Prog.zoom Sys.fs Sys.setFs (f a)) t
  simp only [Prog.bind, Prog.zoom]
  cases m t.fs with
  | ok r => rfl
  | panic msg => rfl
  | blocked => rfl

@[simp] lemma onFs_ite {c : Prop} [Decidable c] (x y : FsM α) :
    (onFs (if c then x else y) : SysM P α) = if c then onFs x else onFs y := by
  split <;> rfl

lemma onFs_search (body : β → FsM (Option γ)) (xs : List β) :
    (onFs (Prog.search body xs) : SysM P _) = Prog.search (fun x => onFs (body x)) xs := by
  induction xs with
  | nil => rfl
  | cons x xs ih =>
    rw [Prog.search, onFs_bind, Prog.search]
    refine bind_congr fun r => ?_
    cases r with
    | none => exact ih
    | some c => rfl

variable [DecidableEq P] (p : P) (i : Fin NINODE)

@[simp] lemma run_panic (msg : String) : (Op.panic msg : Op α).run (den p) = onFs (.panic msg) := rfl
@[simp] lemma run_me : Op.me.run (den p) = onFs (.reads State.me) := run_one ..
@[simp] lemma run_fields : (Op.fields i).run (den p) = onFs (inode i) := run_one ..
@[simp] lemma run_iget (dev inum : Nat) : (Op.iget dev inum).run (den p) = onFs (iget dev inum) :=
  run_one ..
@[simp] lemma run_idup : (Op.idup i).run (den p) = onFs (idup i) := run_one ..
@[simp] lemma run_ialloc (dev : Nat) (type : Int16) :
    (Op.ialloc dev type).run (den p) = onFs (ialloc dev type) := run_one ..
@[simp] lemma run_ilock : (Op.ilock i).run (den p) = onFs (ilock i) := run_one ..
@[simp] lemma run_iunlock : (Op.iunlock i).run (den p) = onFs (iunlock i) := run_one ..
@[simp] lemma run_iput : (Op.iput i).run (den p) = onFs (iput i) := run_one ..
@[simp] lemma run_edit (g : Dinode → Dinode) : (Op.edit i g).run (den p) = onFs (editInode i g) := run_one ..
@[simp] lemma run_itrunc : (Op.itrunc i).run (den p) = onFs (itrunc i) := run_one ..
@[simp] lemma run_readi (dst : Nat → Bool) (off n : UInt32) :
    (Op.readi i dst off n).run (den p) = onFs (readi i dst off n) := run_one ..
@[simp] lemma run_writei (src : Nat → Option UInt8) (off n : UInt32) :
    (Op.writei i src off n).run (den p) = onFs (writei i src off n) := run_one ..

lemma run_beginOp :
    Op.beginOp.run (den p) = setTask p fun task => { task with ops := task.ops + 1 } := run_one ..
lemma run_endOp : Op.endOp.run (den p) = setTask p fun task => { task with ops := task.ops - 1 } := run_one ..
lemma run_filealloc : Op.filealloc.run (den p) = filealloc := run_one ..
lemma run_fdalloc (f : Fin NFILE) : (Op.fdalloc f).run (den p) = fdalloc p f := run_one ..
lemma run_ofile (fd : Fin NOFILE) :
    (Op.ofile fd).run (den p) = .reads fun t => (t.tasks p).ofile fd := run_one ..
lemma run_setOfile (fd : Fin NOFILE) (o : Option (Fin NFILE)) : (Op.setOfile fd o).run (den p) =
    setTask p fun task => { task with ofile := Function.update task.ofile fd o } := run_one ..
lemma run_file (f : Fin NFILE) : (Op.file f).run (den p) = getFile f := run_one ..
lemma run_setFile (f : Fin NFILE) (g : File → File) : (Op.setFile f g).run (den p) = setFile f g := run_one ..
lemma run_filedup (f : Fin NFILE) : (Op.filedup f).run (den p) = filedup f := run_one ..
lemma run_filedrop (f : Fin NFILE) : (Op.filedrop f).run (den p) = filedrop f := run_one ..
lemma run_setCwd : (Op.setCwd i).run (den p) =
    setTask p fun task => { task with proc := { task.proc with cwd := i } } := run_one ..
lemma run_quit : Op.quit.run (den p) = setTask p fun task => { task with used := false } :=
  run_one ..

@[simp] lemma run_iunlockput : (Op.iunlockput i).run (den p) = onFs (iunlockput i) := by
  simp [Op.iunlockput, iunlockput]

@[simp] lemma run_readDirent (off : Nat) (msg : String) :
    (Op.readDirent i off msg).run (den p) = onFs (readDirent i off msg) := by
  simp [Op.readDirent, readDirent]

@[simp] lemma run_writeDirent (off : Nat) (de : Block) :
    (Op.writeDirent i off de).run (den p) = onFs (writeDirent i off de) := run_one ..

@[simp] lemma run_dirlookup (name : Name) : (Op.dirlookup i name).run (den p) = onFs (dirlookup i name) := by
  simp [Op.dirlookup, dirlookup, run_search, onFs_search]

@[simp] lemma run_dirlinkSlot : (Op.dirlinkSlot i).run (den p) = onFs (dirlinkSlot i) := by
  simp [Op.dirlinkSlot, dirlinkSlot, run_search, onFs_search]

@[simp] lemma run_dirlink (name : Name) (inum : Nat) :
    (Op.dirlink i name inum).run (den p) = onFs (dirlink i name inum) := by
  simp only [Op.dirlink, dirlink, run_bind, onFs_bind, run_dirlookup]
  refine bind_congr fun r => ?_
  cases r with
  | none => simp
  | some ip => simp

@[simp] lemma run_dirunlink (name : Name) : (Op.dirunlink i name).run (den p) = onFs (dirunlink i name) := by
  simp [Op.dirunlink, dirunlink, run_search, onFs_search]

@[simp] lemma run_isdirempty : (Op.isdirempty i).run (den p) = onFs (isdirempty i) := by
  simp [Op.isdirempty, isdirempty, run_search, onFs_search]

/-! ### Paths -/

@[simp] lemma run_namexEnd (parent : Bool) : (Op.namexEnd parent i).run (den p) = onFs (namexEnd parent i) := by
  simp [Op.namexEnd, namexEnd]

@[simp] lemma run_namexLoop (parent : Bool) (fuel : Nat) (path : List UInt8) :
    (Op.namexLoop parent fuel i path).run (den p) = onFs (namexLoop parent fuel i path) := by
  induction fuel generalizing i path with
  | zero => simp [Op.namexLoop, namexLoop]
  | succ fuel ih =>
    rw [Op.namexLoop, namexLoop]
    cases skipelem path with
    | none => exact run_namexEnd p i parent
    | some e =>
      simp only [run_bind, run_ite, onFs_bind, onFs_ite, run_ilock, run_fields, run_iunlockput,
        run_iunlock, run_dirlookup, run_pure, onFs_pure]
      refine bind_congr fun _ => bind_congr fun ip => ?_
      refine congrArg (ite _ _) (congrArg (ite _ _) (bind_congr fun r => ?_))
      cases r with
      | none => simp
      | some next => simp [ih]

@[simp] lemma run_namex (path : List UInt8) (parent : Bool) :
    (Op.namex path parent).run (den p) = onFs (namex path parent) := by
  simp [Op.namex, namex]

@[simp] lemma run_namei (path : List UInt8) : (Op.namei path).run (den p) = onFs (namei path) := by
  simp [Op.namei, namei]

@[simp] lemma run_nameiparent (path : List UInt8) :
    (Op.nameiparent path).run (den p) = onFs (nameiparent path) := run_namex p path true

/-! ### Creating -/

@[simp] lemma run_addLink (k : Int16) : (Op.addLink i k).run (den p) = onFs (addLink i k) :=
  run_edit ..

variable (dp ip : Fin NINODE)

@[simp] lemma run_createFail : (Op.createFail dp ip).run (den p) = onFs (createFail dp ip) := by
  simp [Op.createFail, createFail]

@[simp] lemma run_createDots : (Op.createDots dp ip).run (den p) = onFs (createDots dp ip) := by
  simp [Op.createDots, createDots]

@[simp] lemma run_createEntry (name : Name) (type : Int16) :
    (Op.createEntry dp ip name type).run (den p) = onFs (createEntry dp ip name type) := by
  simp [Op.createEntry, createEntry]

@[simp] lemma run_createNew (name : Name) (type major minor : Int16) :
    (Op.createNew dp name type major minor).run (den p) = onFs (createNew dp name type major minor) := by
  simp only [Op.createNew, createNew, run_bind, onFs_bind, run_fields, run_ialloc]
  refine bind_congr fun q => bind_congr fun r => ?_
  cases r with
  | none => simp
  | some ip => simp

@[simp] lemma run_create (path : List UInt8) (type major minor : Int16) :
    (Op.create path type major minor).run (den p) = onFs (create path type major minor) := by
  simp only [Op.create, create, run_bind, onFs_bind, run_nameiparent]
  refine bind_congr fun r => ?_
  cases r with
  | none => simp
  | some r =>
    simp only [run_bind, onFs_bind, run_ilock, run_dirlookup]
    refine bind_congr fun _ => bind_congr fun found => ?_
    cases found with
    | none => simp
    | some ip => simp

/-! ### Opening -/

@[simp] lemma run_openInode (path : List UInt8) (omode : UInt32) :
    (Op.openInode path omode).run (den p) = onFs (openInode path omode) := by
  rw [Op.openInode, openInode, run_ite, onFs_ite, run_create, run_bind, onFs_bind, run_namei]
  refine congrArg (ite _ _) (bind_congr fun r => ?_)
  cases r with
  | none => rfl
  | some ip => simp

@[simp] lemma run_openOffset (omode : UInt32) :
    (Op.openOffset ip omode).run (den p) = onFs (openOffset ip omode) := by
  simp [Op.openOffset, openOffset]

/-! ### Transactions -/

/-- The end of a transaction, after `m`. -/
def closing (m : FsM α) : SysM P α := do
  let r ← onFs m
  setTask p fun task => { task with ops := task.ops - 1 }
  pure r

/-- A transaction in which `m` is run. -/
def transact (m : FsM α) : SysM P α := do
  setTask p fun task => { task with ops := task.ops + 1 }
  closing p m

lemma closing_pure (r : α) : closing p (pure r) =
    (setTask p (fun task => { task with ops := task.ops - 1 }) >>= fun _ => pure r) := rfl

lemma closing_bind (m : FsM α) (f : α → FsM β) : closing p (m >>= f) = onFs m >>= fun a => closing p (f a) := by
  rw [closing, onFs_bind, Prog.bind_assoc]
  rfl

lemma closing_ite {c : Prop} [Decidable c] (x y : FsM α) :
    closing p (if c then x else y) = if c then closing p x else closing p y := by
  split <;> rfl

lemma run_fail : Op.fail.run (den p) = closing p (pure (-1)) := by
  rw [Op.fail, run_bind, run_endOp]
  rfl

lemma run_linkBad : (Op.linkBad ip).run (den p) = closing p (linkBad ip) := by
  simp only [Op.linkBad, linkBad, run_bind, closing_bind, run_ilock, run_addLink, run_iunlockput, run_fail]

lemma run_linkEntry (new : List UInt8) : (Op.linkEntry ip new).run (den p) = closing p (linkEntry ip new) := by
  simp only [Op.linkEntry, linkEntry, run_bind, closing_bind, run_nameiparent]
  refine bind_congr fun r => ?_
  cases r with
  | none => exact run_linkBad p ip
  | some r =>
    simp only [run_bind, closing_bind, run_ilock, run_fields, run_ite, run_pure, run_dirlink,
      onFs_ite, onFs_pure, closing_ite, run_iunlockput, run_linkBad, run_iput, run_endOp,
      closing_pure]

lemma run_sysLink (old new : Option (List UInt8)) : (Op.sysLink old new).run (den p) =
    match argstr old MAXPATH, argstr new MAXPATH with
    | some old, some new => transact p (sysLink old new)
    | _, _ => pure (-1) := by
  rw [Op.sysLink]
  cases argstr old MAXPATH with
  | none => rfl
  | some old =>
    cases argstr new MAXPATH with
    | none => rfl
    | some new =>
      simp only [run_bind, transact, sysLink, closing_bind, run_beginOp, run_namei]
      refine bind_congr fun _ => bind_congr fun r => ?_
      cases r with
      | none => exact run_fail p
      | some ip =>
        simp only [run_bind, closing_bind, run_ilock, run_fields, run_ite, closing_ite,
          run_iunlockput, run_fail, run_addLink, run_iunlock, run_linkEntry]

lemma run_unlinkEntry (off : Nat) :
    (Op.unlinkEntry dp ip off).run (den p) = closing p (unlinkEntry dp ip off) := by
  simp only [Op.unlinkEntry, unlinkEntry, run_bind, closing_bind, run_writeDirent, run_ite,
    closing_ite, run_fields, run_addLink, run_pure, onFs_ite, onFs_pure, run_iunlockput, run_endOp,
    closing_pure]
  rfl

lemma run_unlinkBad : (Op.unlinkBad dp).run (den p) = closing p (unlinkBad dp) := by
  simp only [Op.unlinkBad, unlinkBad, run_bind, closing_bind, run_iunlockput, run_fail]

lemma run_sysUnlink (path : Option (List UInt8)) : (Op.sysUnlink path).run (den p) =
    match argstr path MAXPATH with
    | some path => transact p (sysUnlink path)
    | none => pure (-1) := by
  rw [Op.sysUnlink]
  cases argstr path MAXPATH with
  | none => rfl
  | some path =>
    simp only [run_bind, transact, sysUnlink, closing_bind, run_beginOp, run_nameiparent]
    refine bind_congr fun _ => bind_congr fun r => ?_
    cases r with
    | none => exact run_fail p
    | some r =>
      simp only [run_bind, closing_bind, run_ilock, run_ite, closing_ite, run_unlinkBad, run_dirlookup]
      refine bind_congr fun _ => congrArg (ite _ _) (bind_congr fun found => ?_)
      cases found with
      | none => exact run_unlinkBad p _
      | some found =>
        simp only [run_bind, closing_bind, run_ilock, run_ite, closing_ite, run_fields,
          run_isdirempty, run_pure, onFs_ite, onFs_pure, run_unlinkEntry, run_iunlockput,
          run_unlinkBad]
        rfl

lemma run_make (path : Option (List UInt8)) (type major minor : Int16) :
    (Op.make path type major minor).run (den p) = transact p (match argstr path MAXPATH with
      | some path => make path type major minor
      | none => pure (-1)) := by
  rw [Op.make, run_bind, transact, run_beginOp]
  refine bind_congr fun _ => ?_
  cases argstr path MAXPATH with
  | none => exact run_fail p
  | some path =>
    simp only [run_bind, make, closing_bind, run_create]
    refine bind_congr fun r => ?_
    cases r with
    | none => exact run_fail p
    | some ip =>
      simp only [run_bind, closing_bind, run_iunlockput, run_endOp, run_pure, closing_pure]

lemma run_renameEntry (old_name : Name) (old new : List UInt8) :
    (Op.renameEntry dp old_name old new).run (den p) = closing p (renameEntry dp old_name old new) := by
  simp only [Op.renameEntry, renameEntry, run_bind, closing_bind, run_namei]
  refine bind_congr fun r => ?_
  cases r with
  | none => exact run_fail p
  | some ip =>
    simp only [run_bind, closing_bind, run_ilock, run_fields, run_dirlink, run_ite, closing_ite,
      run_iunlockput, run_fail, run_dirunlink, run_endOp, run_pure, closing_pure]

lemma run_rename (old new : List UInt8) : (Op.rename old new).run (den p) = transact p (rename old new) := by
  simp only [Op.rename, rename, run_bind, transact, closing_bind, run_beginOp, run_nameiparent]
  refine bind_congr fun _ => bind_congr fun r => ?_
  cases r with
  | none => exact run_fail p
  | some r => exact run_renameEntry ..

end

end FypOs.Fs
