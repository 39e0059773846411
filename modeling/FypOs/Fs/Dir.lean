import FypOs.Fs.Inode

/-!
# Fs — directories and paths

The upper half of `kernel/fs.c`, and the system calls of `kernel/sysfile.c` that are built on it:
looking a name up, adding and removing an entry, walking a path, creating, linking, unlinking and
renaming a file.  The calls are here without the transaction they run in.
-/

namespace FypOs.Fs

open Lib

/-! ### Names -/

/-- A name, as the bytes at its address. -/
abbrev Name := Nat → UInt8

/-- A string literal, with the zero byte that ends it. -/
def cstr (l : List UInt8) : Name := fun j => l.getD j 0

def strncmp (p q : Name) : Nat → Int
  | 0 => 0
  | n + 1 =>
    if p 0 ≠ 0 ∧ p 0 = q 0 then strncmp (fun j => p (j + 1)) (fun j => q (j + 1)) n
    else (p 0).toNat - (q 0).toNat

def namecmp (s t : Name) : Int := strncmp s t DIRSIZ

/-- What `strncpy(_, s, n)` stores: the string, and zero bytes after its end. -/
def strncpy (s : Name) (n : Nat) : Name := fun j =>
  if j < n ∧ ∀ k ≤ j, s k ≠ 0 then s j else 0

/-! ### Directory entries -/

/-- The `inum` of a `struct dirent`. -/
def direntInum (de : Block) : Nat := getLE 2 0 de

/-- The `name` of a `struct dirent`. -/
def direntName (de : Block) : Name := fun j => if j < DIRSIZ then de (2 + j) else 0

/-- The entry that `dirlink` writes. -/
def mkDirent (name : Name) (inum : Nat) : Block :=
  putLE 2 0 inum fun j => strncpy name DIRSIZ (j - 2)

/-- The offsets a loop over the entries of a directory visits. -/
def dirOffsets (size : UInt32) : List Nat :=
  (List.range ((size.toNat + DIRENTSZ - 1) / DIRENTSZ)).map (· * DIRENTSZ)

/-- Read the entry at `off`, or stop with the message of the caller. -/
def readDirent (i : Fin NINODE) (off : Nat) (msg : String) : FsM Block := do
  let (r, out) ← readi i (fun _ => true) (UInt32.ofNat off) (UInt32.ofNat DIRENTSZ)
  if r ≠ DIRENTSZ then .panic msg else pure (cstr out)

/-- Write the entry at `off`; returns what `writei` does. -/
def writeDirent (i : Fin NINODE) (off : Nat) (de : Block) : FsM Int :=
  writei i (fun j => some (de j)) (UInt32.ofNat off) (UInt32.ofNat DIRENTSZ)

/-- Look for a directory entry in a directory; returns the inode and the offset of the entry. -/
def dirlookup (i : Fin NINODE) (name : Name) : FsM (Option (Fin NINODE × Nat)) := do
  let dp ← inode i
  if dp.d.type ≠ T_DIR then .panic "dirlookup not DIR"
  else
    Prog.search (fun off => do
      let de ← readDirent i off "dirlookup read"
      if direntInum de = 0 then pure none
      else if namecmp name (direntName de) = 0 then do
        let ip ← iget dp.dev (direntInum de)
        pure (some (ip, off))
      else pure none) (dirOffsets dp.d.size)

/-- The offset of the first empty entry, or the end of the directory. -/
def dirlinkSlot (i : Fin NINODE) : FsM Nat := do
  let dp ← inode i
  let found ← Prog.search (fun off => do
    let de ← readDirent i off "dirlink read"
    if direntInum de = 0 then pure (some off) else pure none) (dirOffsets dp.d.size)
  pure (found.getD ((dirOffsets dp.d.size).length * DIRENTSZ))

/-- Write a new directory entry into the directory. -/
def dirlink (i : Fin NINODE) (name : Name) (inum : Nat) : FsM Int := do
  match ← dirlookup i name with
  | some (ip, _) => do
    iput ip
    pure (-1)
  | none => do
    let off ← dirlinkSlot i
    let r ← writeDirent i off (mkDirent name inum)
    if r ≠ DIRENTSZ then pure (-1) else pure 0

/-- Remove a directory entry from the directory. -/
def dirunlink (i : Fin NINODE) (name : Name) : FsM Int := do
  let dp ← inode i
  let found ← Prog.search (fun off => do
    let de ← readDirent i off "dirunlink read"
    if strncmp (direntName de) name DIRSIZ = 0 ∧ direntInum de ≠ 0 then do
      let r ← writeDirent i off (putLE 2 0 0 de)
      if r ≠ DIRENTSZ then pure (some (-1)) else pure (some 0)
    else pure none) (dirOffsets dp.d.size)
  pure (found.getD (-1))

/-! ### Paths -/

/-- The character `/`. -/
def slash : UInt8 := 47

/-- Split off the next path element; the rest has no leading slashes. -/
def skipelem (path : List UInt8) : Option (Name × List UInt8) :=
  let p := path.dropWhile (· == slash)
  if p = [] then none
  else some (cstr ((p.takeWhile (· != slash)).take DIRSIZ), (p.dropWhile (· != slash)).dropWhile (· == slash))

/-- What `namex` does once the path is used up. -/
def namexEnd (parent : Bool) (i : Fin NINODE) : FsM (Option (Fin NINODE × Name)) :=
  if parent then do
    iput i
    pure none
  else pure (some (i, cstr []))

/-- The loop of `namex`, with the inode it has got to and what is left of the path. -/
def namexLoop (parent : Bool) : Nat → Fin NINODE → List UInt8 → FsM (Option (Fin NINODE × Name))
  | 0, i, _ => namexEnd parent i
  | fuel + 1, i, path =>
    match skipelem path with
    | none => namexEnd parent i
    | some (name, path) => do
      ilock i
      let ip ← inode i
      if ip.d.type ≠ T_DIR then do
        iunlockput i
        pure none
      else if parent = true ∧ path = [] then do
        -- stop one level early
        iunlock i
        pure (some (i, name))
      else do
        match ← dirlookup i name with
        | none => do
          iunlockput i
          pure none
        | some (next, _) => do
          iunlockput i
          namexLoop parent fuel next path

/-- Look up and return the inode for a path name, or with `parent` that of its parent and the final
path element. -/
def namex (path : List UInt8) (parent : Bool) : FsM (Option (Fin NINODE × Name)) := do
  let p ← .reads State.me
  let i ← (if path.head? = some slash then iget ROOTDEV ROOTINO else idup p.cwd : FsM _)
  namexLoop parent path.length i path

def namei (path : List UInt8) : FsM (Option (Fin NINODE)) := do
  let r ← namex path false
  pure (r.map Prod.fst)

def nameiparent (path : List UInt8) : FsM (Option (Fin NINODE × Name)) := namex path true

/-! ### Creating and unlinking -/

/-- Is the directory empty except for `.` and `..`? -/
def isdirempty (i : Fin NINODE) : FsM Bool := do
  let dp ← inode i
  let found ← Prog.search (fun off => do
    let de ← readDirent i off "isdirempty: readi"
    if direntInum de ≠ 0 then pure (some ()) else pure none) ((dirOffsets dp.d.size).drop 2)
  pure found.isNone

/-- The names `.` and `..`. -/
def dot : Name := cstr [46]
def dotdot : Name := cstr [46, 46]

/-- Change fields of an inode, in memory and on disk. -/
def editInode (i : Fin NINODE) (g : Dinode → Dinode) : FsM Unit := do
  setDinode i g
  iupdate i

/-- Change the link count of an inode. -/
def addLink (i : Fin NINODE) (k : Int16) : FsM Unit :=
  editInode i fun d => { d with nlink := d.nlink + k }

/-- The part of `sys_unlink` after both inodes have been locked. -/
def unlinkEntry (dp ip : Fin NINODE) (off : Nat) : FsM Int := do
  let r ← writeDirent dp off fun _ => 0
  if r ≠ DIRENTSZ then .panic "unlink: writei"
  else do
    let p ← inode ip
    (if p.d.type = T_DIR then addLink dp (-1) else pure () : FsM Unit)
    iunlockput dp
    addLink ip (-1)
    iunlockput ip
    pure 0

/-- The end of `sys_unlink` on failure. -/
def unlinkBad (dp : Fin NINODE) : FsM Int := do
  iunlockput dp
  pure (-1)

def sysUnlink (path : List UInt8) : FsM Int := do
  match ← nameiparent path with
  | none => pure (-1)
  | some (dp, name) => do
    ilock dp
    if namecmp name dot = 0 ∨ namecmp name dotdot = 0 then unlinkBad dp
    else do
      match ← dirlookup dp name with
      | none => unlinkBad dp
      | some (ip, off) => do
        ilock ip
        let p ← inode ip
        if p.d.nlink < 1 then .panic "unlink: nlink < 1"
        else do
          let empty ← (if p.d.type = T_DIR then isdirempty ip else pure true : FsM Bool)
          if empty then unlinkEntry dp ip off
          else do
            iunlockput ip
            unlinkBad dp

/-- The end of `create` on failure: de-allocate the inode. -/
def createFail (dp ip : Fin NINODE) : FsM (Option (Fin NINODE)) := do
  editInode ip fun d => { d with nlink := 0 }
  iunlockput ip
  iunlockput dp
  pure none

/-- The `.` and `..` entries of a new directory; whether both could be written. -/
def createDots (dp ip : Fin NINODE) : FsM Bool := do
  let p ← inode ip
  let r ← dirlink ip dot p.inum
  if r < 0 then pure false
  else do
    let q ← inode dp
    let r ← dirlink ip dotdot q.inum
    pure (0 ≤ r)

/-- The part of `create` that puts the new inode into its directory. -/
def createEntry (dp ip : Fin NINODE) (name : Name) (type : Int16) : FsM (Option (Fin NINODE)) := do
  let p ← inode ip
  let r ← dirlink dp name p.inum
  if r < 0 then createFail dp ip
  else do
    -- now that success is guaranteed: the link of `..`
    (if type = T_DIR then addLink dp 1 else pure () : FsM Unit)
    iunlockput dp
    pure (some ip)

/-- The part of `create` that makes a new inode. -/
def createNew (dp : Fin NINODE) (name : Name) (type major minor : Int16) :
    FsM (Option (Fin NINODE)) := do
  let q ← inode dp
  match ← ialloc q.dev type with
  | none => do
    iunlockput dp
    pure none
  | some ip => do
    ilock ip
    editInode ip fun d => { d with major := major, minor := minor, nlink := 1 }
    let dots ← (if type = T_DIR then createDots dp ip else pure true : FsM Bool)
    if dots then createEntry dp ip name type else createFail dp ip

def create (path : List UInt8) (type major minor : Int16) : FsM (Option (Fin NINODE)) := do
  match ← nameiparent path with
  | none => pure none
  | some (dp, name) => do
    ilock dp
    match ← dirlookup dp name with
    | some (ip, _) => do
      iunlockput dp
      ilock ip
      let p ← inode ip
      if type = T_FILE ∧ (p.d.type = T_FILE ∨ p.d.type = T_DEVICE) then pure (some ip)
      else do
        iunlockput ip
        pure none
    | none => createNew dp name type major minor

/-! ### Linking and renaming -/

/-- The end of `sys_link` on failure: take the link back. -/
def linkBad (ip : Fin NINODE) : FsM Int := do
  ilock ip
  addLink ip (-1)
  iunlockput ip
  pure (-1)

/-- The part of `sys_link` that makes the entry, after the link has been counted. -/
def linkEntry (ip : Fin NINODE) (new : List UInt8) : FsM Int := do
  match ← nameiparent new with
  | none => linkBad ip
  | some (dp, name) => do
    ilock dp
    let q ← inode dp
    let p ← inode ip
    let r ← (if q.dev ≠ p.dev then pure (-1) else dirlink dp name p.inum : FsM Int)
    if r < 0 then do
      iunlockput dp
      linkBad ip
    else do
      iunlockput dp
      iput ip
      pure 0

/-- Create the path `new` as a link to the same inode as `old`. -/
def sysLink (old new : List UInt8) : FsM Int := do
  match ← namei old with
  | none => pure (-1)
  | some ip => do
    ilock ip
    let p ← inode ip
    if p.d.type = T_DIR then do
      iunlockput ip
      pure (-1)
    else do
      addLink ip 1
      iunlock ip
      linkEntry ip new

/-- The part of `rename` after the parent has been found. -/
def renameEntry (old_dp : Fin NINODE) (old_name : Name) (old new : List UInt8) : FsM Int := do
  match ← namei old with
  | none => pure (-1)
  | some ip => do
    ilock ip
    let p ← inode ip
    let r ← dirlink old_dp (cstr new) p.inum
    if r < 0 then do
      iunlockput ip
      pure (-1)
    else do
      ilock old_dp
      let r ← dirunlink old_dp old_name
      if r < 0 then do
        -- attempt to undo the new link
        let _ ← dirunlink old_dp (cstr new)
        iunlockput old_dp
        pure (-1)
      else do
        iunlockput ip
        iunlockput old_dp
        pure 0

def rename (old new : List UInt8) : FsM Int := do
  match ← nameiparent old with
  | none => pure (-1)
  | some (old_dp, old_name) => renameEntry old_dp old_name old new

/-- `sys_mkdir` and `sys_mknod` make an inode and let go of it. -/
def make (path : List UInt8) (type major minor : Int16) : FsM Int := do
  match ← create path type major minor with
  | none => pure (-1)
  | some ip => do
    iunlockput ip
    pure 0

end FypOs.Fs
