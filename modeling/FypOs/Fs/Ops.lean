import FypOs.Fs.Sys
import FypOs.Lib.Code

/-!
# Fs — directories and paths, action by action

The functions on directories and paths of `kernel/fs.c`, and `create`, as sequences of the actions
between which other processes may run: the functions of the inode layer and those of the file table,
each of which works under a lock of its own.  `begin_op` and `end_op` count what they match; waiting
for space in the log is no part of this level.

`den p a` is what action `a` does when process `p` performs it.  A function that is not interrupted
does what the function over `State` of that name does: `run_namex`, `run_create`.

A loop over the entries of a directory takes its bound from the size of the directory at its start,
where the source reads `dp->size` in every round.
-/

namespace FypOs.Fs

open Lib

/-- The actions of a process. -/
inductive Act where
  | me
  | fields (i : Fin NINODE)
  | iget (dev inum : Nat)
  | idup (i : Fin NINODE)
  | ialloc (dev : Nat) (type : Int16)
  | ilock (i : Fin NINODE)
  | iunlock (i : Fin NINODE)
  | iput (i : Fin NINODE)
  /-- Fields are assigned, and `iupdate` is called. -/
  | edit (i : Fin NINODE) (g : Dinode → Dinode)
  | itrunc (i : Fin NINODE)
  | readi (i : Fin NINODE) (dst : Nat → Bool) (off n : UInt32)
  | writei (i : Fin NINODE) (src : Nat → Option UInt8) (off n : UInt32)
  | beginOp
  | endOp
  | filealloc
  | fdalloc (f : Fin NFILE)
  | ofile (fd : Fin NOFILE)
  | setOfile (fd : Fin NOFILE) (o : Option (Fin NFILE))
  | file (f : Fin NFILE)
  | setFile (f : Fin NFILE) (g : File → File)
  | filedup (f : Fin NFILE)
  | filedrop (f : Fin NFILE)
  | chdir (i : Fin NINODE)
  /-- The process gives up its current directory for good. -/
  | quit
  | panic (msg : String)

/-- What an action answers. -/
def Act.Res : Act → Type
  | me => Proc
  | fields _ => Inode
  | iget .. | idup _ => Fin NINODE
  | ialloc .. => Option (Fin NINODE)
  | readi .. => Int × List UInt8
  | writei .. => Int
  | filealloc => Option (Fin NFILE)
  | fdalloc _ => Option (Fin NOFILE)
  | ofile _ => Option (Fin NFILE)
  | file _ => File
  | filedrop _ => Option File
  | panic _ => Empty
  | _ => Unit

/-- Programs that perform actions. -/
abbrev Op (α : Type) := Code Act Act.Res α

section

variable {P : Type} [DecidableEq P]

/-- What an action does when process `p` performs it. -/
def den (p : P) : (a : Act) → SysM P a.Res
  | .me => onFs (.reads State.me)
  | .fields i => onFs (inode i)
  | .iget dev inum => onFs (iget dev inum)
  | .idup i => onFs (idup i)
  | .ialloc dev type => onFs (ialloc dev type)
  | .ilock i => onFs (ilock i)
  | .iunlock i => onFs (iunlock i)
  | .iput i => onFs (iput i)
  | .edit i g => onFs (editInode i g)
  | .itrunc i => onFs (itrunc i)
  | .readi i dst off n => onFs (readi i dst off n)
  | .writei i src off n => onFs (writei i src off n)
  | .beginOp => setTask p fun task => { task with ops := task.ops + 1 }
  | .endOp => setTask p fun task => { task with ops := task.ops - 1 }
  | .filealloc => filealloc
  | .fdalloc f => fdalloc p f
  | .ofile fd => .reads fun t => (t.tasks p).ofile fd
  | .setOfile fd o => setTask p fun task => { task with ofile := Function.update task.ofile fd o }
  | .file f => getFile f
  | .setFile f g => setFile f g
  | .filedup f => filedup f
  | .filedrop f => filedrop f
  | .chdir i => setTask p fun task => { task with proc := { task.proc with cwd := i } }
  | .quit => setTask p fun task => { task with used := false }
  | .panic msg => .panic msg

end

namespace Op

def me : Op Proc := .one Act.me
def fields (i : Fin NINODE) : Op Inode := .one (Act.fields i)
def iget (dev inum : Nat) : Op (Fin NINODE) := .one (Act.iget dev inum)
def idup (i : Fin NINODE) : Op (Fin NINODE) := .one (Act.idup i)
def ialloc (dev : Nat) (type : Int16) : Op (Option (Fin NINODE)) := .one (Act.ialloc dev type)
def ilock (i : Fin NINODE) : Op Unit := .one (Act.ilock i)
def iunlock (i : Fin NINODE) : Op Unit := .one (Act.iunlock i)
def iput (i : Fin NINODE) : Op Unit := .one (Act.iput i)
def edit (i : Fin NINODE) (g : Dinode → Dinode) : Op Unit := .one (Act.edit i g)
def itrunc (i : Fin NINODE) : Op Unit := .one (Act.itrunc i)
def readi (i : Fin NINODE) (dst : Nat → Bool) (off n : UInt32) : Op (Int × List UInt8) :=
  .one (Act.readi i dst off n)
def writei (i : Fin NINODE) (src : Nat → Option UInt8) (off n : UInt32) : Op Int :=
  .one (Act.writei i src off n)
def beginOp : Op Unit := .one Act.beginOp
def endOp : Op Unit := .one Act.endOp
def filealloc : Op (Option (Fin NFILE)) := .one Act.filealloc
def fdalloc (f : Fin NFILE) : Op (Option (Fin NOFILE)) := .one (Act.fdalloc f)
def ofile (fd : Fin NOFILE) : Op (Option (Fin NFILE)) := .one (Act.ofile fd)
def setOfile (fd : Fin NOFILE) (o : Option (Fin NFILE)) : Op Unit := .one (Act.setOfile fd o)
def file (f : Fin NFILE) : Op File := .one (Act.file f)
def setFile (f : Fin NFILE) (g : File → File) : Op Unit := .one (Act.setFile f g)
def filedup (f : Fin NFILE) : Op Unit := .one (Act.filedup f)
def filedrop (f : Fin NFILE) : Op (Option File) := .one (Act.filedrop f)
def setCwd (i : Fin NINODE) : Op Unit := .one (Act.chdir i)
def quit : Op Unit := .one Act.quit

/-- Stop with a message. -/
def panic {α : Type} (msg : String) : Op α := .act (.panic msg) fun e => nomatch e

def iunlockput (i : Fin NINODE) : Op Unit := do
  iunlock i
  iput i

/-! ### Directories -/

def readDirent (i : Fin NINODE) (off : Nat) (msg : String) : Op Block := do
  let (r, out) ← readi i (fun _ => true) (UInt32.ofNat off) (UInt32.ofNat DIRENTSZ)
  if r ≠ DIRENTSZ then panic msg else pure (cstr out)

def writeDirent (i : Fin NINODE) (off : Nat) (de : Block) : Op Int :=
  writei i (fun j => some (de j)) (UInt32.ofNat off) (UInt32.ofNat DIRENTSZ)

/-- Look for a directory entry in a directory. -/
def dirlookup (i : Fin NINODE) (name : Name) : Op (Option (Fin NINODE × Nat)) := do
  let dp ← fields i
  if dp.d.type ≠ T_DIR then panic "dirlookup not DIR"
  else
    Code.search (fun off => do
      let de ← readDirent i off "dirlookup read"
      if direntInum de = 0 then pure none
      else if namecmp name (direntName de) = 0 then do
        let ip ← iget dp.dev (direntInum de)
        pure (some (ip, off))
      else pure none) (dirOffsets dp.d.size)

/-- The offset of the first empty entry, or the end of the directory. -/
def dirlinkSlot (i : Fin NINODE) : Op Nat := do
  let dp ← fields i
  let found ← Code.search (fun off => do
    let de ← readDirent i off "dirlink read"
    if direntInum de = 0 then pure (some off) else pure none) (dirOffsets dp.d.size)
  pure (found.getD ((dirOffsets dp.d.size).length * DIRENTSZ))

/-- Write a new directory entry into the directory. -/
def dirlink (i : Fin NINODE) (name : Name) (inum : Nat) : Op Int := do
  match ← dirlookup i name with
  | some (ip, _) => do
    iput ip
    pure (-1)
  | none => do
    let off ← dirlinkSlot i
    let r ← writeDirent i off (mkDirent name inum)
    if r ≠ DIRENTSZ then pure (-1) else pure 0

/-- Remove a directory entry from the directory. -/
def dirunlink (i : Fin NINODE) (name : Name) : Op Int := do
  let dp ← fields i
  let found ← Code.search (fun off => do
    let de ← readDirent i off "dirunlink read"
    if strncmp (direntName de) name DIRSIZ = 0 ∧ direntInum de ≠ 0 then do
      let r ← writeDirent i off (putLE 2 0 0 de)
      if r ≠ DIRENTSZ then pure (some (-1)) else pure (some 0)
    else pure none) (dirOffsets dp.d.size)
  pure (found.getD (-1))

/-- Is the directory empty except for `.` and `..`? -/
def isdirempty (i : Fin NINODE) : Op Bool := do
  let dp ← fields i
  let found ← Code.search (fun off => do
    let de ← readDirent i off "isdirempty: readi"
    if direntInum de ≠ 0 then pure (some ()) else pure none) ((dirOffsets dp.d.size).drop 2)
  pure found.isNone

/-! ### Paths -/

def namexEnd (parent : Bool) (i : Fin NINODE) : Op (Option (Fin NINODE × Name)) :=
  if parent then do
    iput i
    pure none
  else pure (some (i, cstr []))

/-- The loop of `namex`, with the inode it has got to and what is left of the path. -/
def namexLoop (parent : Bool) : Nat → Fin NINODE → List UInt8 → Op (Option (Fin NINODE × Name))
  | 0, i, _ => namexEnd parent i
  | fuel + 1, i, path =>
    match skipelem path with
    | none => namexEnd parent i
    | some (name, path) => do
      ilock i
      let ip ← fields i
      if ip.d.type ≠ T_DIR then do
        iunlockput i
        pure none
      else if parent = true ∧ path = [] then do
        -- stop one level early
        iunlock i
        pure (some (i, name))
      else do
        match ← dirlookup i name with
        | none => do
          iunlockput i
          pure none
        | some (next, _) => do
          iunlockput i
          namexLoop parent fuel next path

/-- Look up and return the inode for a path name, or with `parent` that of its parent and the final
path element. -/
def namex (path : List UInt8) (parent : Bool) : Op (Option (Fin NINODE × Name)) := do
  let p ← me
  let i ← (if path.head? = some slash then iget ROOTDEV ROOTINO else idup p.cwd : Op _)
  namexLoop parent path.length i path

def namei (path : List UInt8) : Op (Option (Fin NINODE)) := do
  let r ← namex path false
  pure (r.map Prod.fst)

def nameiparent (path : List UInt8) : Op (Option (Fin NINODE × Name)) := namex path true

/-! ### Creating -/

/-- Change the link count of an inode, in memory and on disk. -/
def addLink (i : Fin NINODE) (k : Int16) : Op Unit := edit i fun d => { d with nlink := d.nlink + k }

/-- The end of `create` on failure: de-allocate the inode. -/
def createFail (dp ip : Fin NINODE) : Op (Option (Fin NINODE)) := do
  edit ip fun d => { d with nlink := 0 }
  iunlockput ip
  iunlockput dp
  pure none

/-- The `.` and `..` entries of a new directory; whether both could be written. -/
def createDots (dp ip : Fin NINODE) : Op Bool := do
  let p ← fields ip
  let r ← dirlink ip dot p.inum
  if r < 0 then pure false
  else do
    let q ← fields dp
    let r ← dirlink ip dotdot q.inum
    pure (0 ≤ r)

/-- The part of `create` that puts the new inode into its directory. -/
def createEntry (dp ip : Fin NINODE) (name : Name) (type : Int16) : Op (Option (Fin NINODE)) := do
  let p ← fields ip
  let r ← dirlink dp name p.inum
  if r < 0 then createFail dp ip
  else do
    (if type = T_DIR then addLink dp 1 else pure () : Op Unit)
    iunlockput dp
    pure (some ip)

/-- The part of `create` that makes a new inode. -/
def createNew (dp : Fin NINODE) (name : Name) (type major minor : Int16) :
    Op (Option (Fin NINODE)) := do
  let q ← fields dp
  match ← ialloc q.dev type with
  | none => do
    iunlockput dp
    pure none
  | some ip => do
    ilock ip
    edit ip fun d => { d with major := major, minor := minor, nlink := 1 }
    let dots ← (if type = T_DIR then createDots dp ip else pure true : Op Bool)
    if dots then createEntry dp ip name type else createFail dp ip

def create (path : List UInt8) (type major minor : Int16) : Op (Option (Fin NINODE)) := do
  match ← nameiparent path with
  | none => pure none
  | some (dp, name) => do
    ilock dp
    match ← dirlookup dp name with
    | some (ip, _) => do
      iunlockput dp
      ilock ip
      let p ← fields ip
      if type = T_FILE ∧ (p.d.type = T_FILE ∨ p.d.type = T_DEVICE) then pure (some ip)
      else do
        iunlockput ip
        pure none
    | none => createNew dp name type major minor

end Op

end FypOs.Fs
