import FypOs.Fs.Ops

/-!
# Fs — the system calls

`sys_open`, `sys_link`, `sys_unlink` and the other calls of `kernel/sysfile.c`, with the parts of
`exec` and `exit` that use the file system.  Each call opens and closes its transaction where the
source does, on every path.
-/

namespace FypOs.Fs

open Lib

/-! ### System calls -/

/-- A string argument: the bytes up to the zero byte, if they can be read from user memory and there
are fewer than `max`. -/
def argstr (u : Option (List UInt8)) (max : Nat) : Option (List UInt8) :=
  u.filter fun path => path.length < max

/-- Maximum file path name. -/
def MAXPATH : Nat := 128

namespace Op

/-- The end of a system call that fails in a transaction. -/
def fail : Op Int := do
  endOp
  pure (-1)

/-- The end of `sys_link` on failure: take the link back. -/
def linkBad (ip : Fin NINODE) : Op Int := do
  ilock ip
  addLink ip (-1)
  iunlockput ip
  fail

/-- The part of `sys_link` that makes the entry, after the link has been counted. -/
def linkEntry (ip : Fin NINODE) (new : List UInt8) : Op Int := do
  match ← nameiparent new with
  | none => linkBad ip
  | some (dp, name) => do
    ilock dp
    let q ← fields dp
    let p ← fields ip
    -- both inodes are on the same device, or the link is refused
    let r ← (if q.dev ≠ p.dev then pure (-1) else dirlink dp name p.inum : Op Int)
    if r < 0 then do
      iunlockput dp
      linkBad ip
    else do
      iunlockput dp
      iput ip
      endOp
      pure 0

/-- Create the path `new` as a link to the same inode as `old`. -/
def sysLink (old new : Option (List UInt8)) : Op Int :=
  match argstr old MAXPATH, argstr new MAXPATH with
  | some old, some new => do
    beginOp
    match ← namei old with
    | none => fail
    | some ip => do
      ilock ip
      let p ← fields ip
      if p.d.type = T_DIR then do
        iunlockput ip
        fail
      else do
        addLink ip 1
        iunlock ip
        linkEntry ip new
  | _, _ => pure (-1)

/-- The part of `sys_unlink` after both inodes have been locked. -/
def unlinkEntry (dp ip : Fin NINODE) (off : Nat) : Op Int := do
  let r ← writeDirent dp off fun _ => 0
  if r ≠ DIRENTSZ then panic "unlink: writei"
  else do
    let p ← fields ip
    (if p.d.type = T_DIR then addLink dp (-1) else pure () : Op Unit)
    iunlockput dp
    addLink ip (-1)
    iunlockput ip
    endOp
    pure 0

/-- The end of `sys_unlink` on failure. -/
def unlinkBad (dp : Fin NINODE) : Op Int := do
  iunlockput dp
  fail

def sysUnlink (path : Option (List UInt8)) : Op Int :=
  match argstr path MAXPATH with
  | none => pure (-1)
  | some path => do
    beginOp
    match ← nameiparent path with
    | none => fail
    | some (dp, name) => do
      ilock dp
      if namecmp name dot = 0 ∨ namecmp name dotdot = 0 then unlinkBad dp
      else do
        match ← dirlookup dp name with
        | none => unlinkBad dp
        | some (ip, off) => do
          ilock ip
          let p ← fields ip
          if p.d.nlink < 1 then panic "unlink: nlink < 1"
          else do
            let empty ← (if p.d.type = T_DIR then isdirempty ip else pure true : Op Bool)
            if empty then unlinkEntry dp ip off
            else do
              iunlockput ip
              unlinkBad dp

/-- `sys_mkdir` and `sys_mknod` make an inode and let go of it. -/
def make (path : Option (List UInt8)) (type major minor : Int16) : Op Int := do
  beginOp
  match argstr path MAXPATH with
  | none => fail
  | some path => do
    match ← create path type major minor with
    | none => fail
    | some ip => do
      iunlockput ip
      endOp
      pure 0

def sysMkdir (path : Option (List UInt8)) : Op Int := make path T_DIR 0 0

def sysMknod (path : Option (List UInt8)) (major minor : Int16) : Op Int :=
  make path T_DEVICE major minor

/-- The part of `sys_chdir` that is a transaction: the new directory, once the old one has been given
back. -/
def chdirTo (path : Option (List UInt8)) : Op (Option (Fin NINODE)) := do
  let p ← me
  beginOp
  match argstr path MAXPATH with
  | none => do
    endOp
    pure none
  | some path => do
    match ← namei path with
    | none => do
      endOp
      pure none
    | some ip => do
      ilock ip
      let q ← fields ip
      if q.d.type ≠ T_DIR then do
        iunlockput ip
        endOp
        pure none
      else do
        iunlock ip
        iput p.cwd
        endOp
        pure (some ip)

def sysChdir (path : Option (List UInt8)) : Op Int := do
  match ← chdirTo path with
  | none => pure (-1)
  | some ip => do
    setCwd ip
    pure 0

/-- The part of `rename` after the parent has been found. -/
def renameEntry (old_dp : Fin NINODE) (old_name : Name) (old new : List UInt8) : Op Int := do
  match ← namei old with
  | none => fail
  | some ip => do
    ilock ip
    let p ← fields ip
    let r ← dirlink old_dp (cstr new) p.inum
    if r < 0 then do
      iunlockput ip
      fail
    else do
      ilock old_dp
      let r ← dirunlink old_dp old_name
      if r < 0 then do
        -- attempt to undo the new link
        let _ ← dirunlink old_dp (cstr new)
        iunlockput old_dp
        fail
      else do
        iunlockput ip
        iunlockput old_dp
        endOp
        pure 0

def rename (old new : List UInt8) : Op Int := do
  beginOp
  match ← nameiparent old with
  | none => fail
  | some (old_dp, old_name) => renameEntry old_dp old_name old new

def sysRename (old new : Option (List UInt8)) : Op Int :=
  match argstr old DIRSIZ, argstr new DIRSIZ with
  | some old, some new => rename old new
  | _, _ => pure (-1)

end Op

/-! ### Opening and closing -/

namespace Op

/-- Close a file: decrement its reference count, and give its inode back when it reaches zero.
Closing a pipe is no part of the file system. -/
def fileclose (f : Fin NFILE) : Op Unit := do
  match ← filedrop f with
  | none => pure ()
  | some ff =>
    if ff.type = .inode ∨ ff.type = .device then do
      beginOp
      iput ff.ip
      endOp
    else pure ()

/-- The part of `sys_open` that finds or makes the inode, and locks it. -/
def openInode (path : List UInt8) (omode : UInt32) : Op (Option (Fin NINODE)) :=
  if omode &&& O_CREATE ≠ 0 then create path T_FILE 0 0
  else do
    match ← namei path with
    | none => pure none
    | some ip => do
      ilock ip
      let q ← fields ip
      if q.d.type = T_DIR ∧ omode ≠ O_RDONLY then do
        iunlockput ip
        pure none
      else pure (some ip)

/-- Truncate the file if that is asked for; where in the file to start. -/
def openOffset (ip : Fin NINODE) (omode : UInt32) : Op UInt32 := do
  let q ← fields ip
  (if omode &&& O_TRUNC ≠ 0 ∧ q.d.type = T_FILE then itrunc ip else pure () : Op Unit)
  -- appending, if the file is not to be truncated and is writable
  if omode &&& O_TRUNC = 0 ∧ writing omode = true then do
    let q ← fields ip
    pure q.d.size
  else pure 0

/-- The part of `sys_open` that fills in the file. -/
def openFill (f : Fin NFILE) (ip : Fin NINODE) (omode : UInt32) : Op Unit := do
  let q ← fields ip
  (if q.d.type = T_DEVICE then
    setFile f fun file => { file with
      type := .device, major := q.d.major, ip := ip, readable := omode &&& O_WRONLY = 0,
      writable := writing omode }
  else do
    let off ← openOffset ip omode
    setFile f fun file => { file with
      type := .inode, off := off, ip := ip, readable := omode &&& O_WRONLY = 0,
      writable := writing omode } : Op Unit)
  iunlock ip

/-- Give the inode back and fail. -/
def openFail (ip : Fin NINODE) : Op Int := do
  iunlockput ip
  fail

/-- The part of `sys_open` after the inode has been locked. -/
def openFile (ip : Fin NINODE) (omode : UInt32) : Op Int := do
  let q ← fields ip
  if q.d.type = T_DEVICE ∧ (q.d.major < 0 ∨ q.d.major.toInt ≥ NDEV) then openFail ip
  else do
    match ← filealloc with
    | none => openFail ip
    | some f => do
      match ← fdalloc f with
      | none => do
        fileclose f
        openFail ip
      | some fd => do
        openFill f ip omode
        endOp
        pure fd.val

def sysOpen (path : Option (List UInt8)) (omode : UInt32) : Op Int :=
  match argstr path MAXPATH with
  | none => pure (-1)
  | some path => do
    beginOp
    match ← openInode path omode with
    | none => fail
    | some ip => openFile ip omode

def sysDup (fd : Fin NOFILE) : Op Int := do
  match ← ofile fd with
  | none => pure (-1)
  | some f => do
    match ← fdalloc f with
    | none => pure (-1)
    | some fd => do
      filedup f
      pure fd.val

def sysClose (fd : Fin NOFILE) : Op Int := do
  match ← ofile fd with
  | none => pure (-1)
  | some f => do
    setOfile fd none
    fileclose f
    pure 0

/-- The part of `exit` that gives back what the process holds of the file system. -/
def exitFiles : Op Unit := do
  let p ← me
  Code.forEach (fun fd => do
    match ← ofile fd with
    | none => pure ()
    | some f => do
      fileclose f
      setOfile fd none) (List.finRange NOFILE)
  beginOp
  iput p.cwd
  endOp

def exit : Op Int := do
  exitFiles
  quit
  pure 0

/-! ### Reading and writing -/

/-- What pipes and devices answer. -/
structure Drivers where
  pipe : Int
  /-- The answer of the function of a device, if it has one. -/
  dev : Int16 → Option Int

/-- What a call on a device answers. -/
def Drivers.call (drv : Drivers) (major : Int16) : Int :=
  if major < 0 ∨ major.toInt ≥ NDEV then -1 else (drv.dev major).getD (-1)

/-- The branch of `fileread` for an inode. -/
def filereadInode (f : Fin NFILE) (dst : Nat → Bool) (n : UInt32) : Op Int := do
  let fl ← file f
  ilock fl.ip
  let fl ← file f
  let (r, _) ← readi fl.ip dst fl.off n
  (if r > 0 then setFile f fun fl => { fl with off := fl.off + UInt32.ofNat r.toNat }
    else pure () : Op Unit)
  iunlock fl.ip
  pure r

def fileread (f : Fin NFILE) (dst : Nat → Bool) (n : UInt32) (drv : Drivers) : Op Int := do
  let fl ← file f
  if fl.readable = false then pure (-1)
  else
    match fl.type with
    | .pipe => pure drv.pipe
    | .device => pure (drv.call fl.major)
    | .inode => filereadInode f dst n
    | .none => panic "fileread"

/-- A round of the loop of `filewrite`: write the `n1` bytes from `i` on. -/
def filewriteRound (f : Fin NFILE) (src : Nat → Option UInt8) (i n1 : Nat) : Op Int := do
  beginOp
  let fl ← file f
  ilock fl.ip
  let fl ← file f
  let r ← writei fl.ip (fun j => src (i + j)) fl.off (UInt32.ofNat n1)
  (if r > 0 then setFile f fun fl => { fl with off := fl.off + UInt32.ofNat r.toNat }
    else pure () : Op Unit)
  iunlock fl.ip
  endOp
  pure r

/-- The loop of `filewrite`: `i` of `n` bytes have been written. -/
def filewriteLoop (f : Fin NFILE) (src : Nat → Option UInt8) (n : Nat) : Nat → Nat → Op Int
  | 0, _ => pure n
  | fuel + 1, i =>
    if i < n then do
      let n1 := min (n - i) filewriteMax
      let r ← filewriteRound f src i n1
      if r ≠ n1 then pure (-1) else filewriteLoop f src n fuel (i + n1)
    else pure n

/-- The branch of `filewrite` for an inode; with a negative length the loop ends before its first
round. -/
def filewriteInode (f : Fin NFILE) (src : Nat → Option UInt8) (n : Int) : Op Int :=
  if n < 0 then pure (-1) else filewriteLoop f src n.toNat (n.toNat + 1) 0

def filewrite (f : Fin NFILE) (src : Nat → Option UInt8) (n : Int) (drv : Drivers) : Op Int := do
  let fl ← file f
  if fl.writable = false then pure (-1)
  else
    match fl.type with
    | .pipe => pure drv.pipe
    | .device => pure (drv.call fl.major)
    | .inode => filewriteInode f src n
    | .none => panic "filewrite"

def sysRead (fd : Fin NOFILE) (dst : Nat → Bool) (n : UInt32) (drv : Drivers) : Op Int := do
  match ← ofile fd with
  | none => pure (-1)
  | some f => fileread f dst n drv

def sysWrite (fd : Fin NOFILE) (src : Nat → Option UInt8) (n : Int) (drv : Drivers) : Op Int := do
  match ← ofile fd with
  | none => pure (-1)
  | some f => filewrite f src n drv

/-! ### Running a program -/

/-- What the memory functions answer that `exec` calls. -/
structure ExecMem where
  proc_pagetable : Bool
  /-- The call of `uvmalloc` for a program header. -/
  uvmalloc : Nat → Bool
  /-- Everything after the file has been let go of; the argument count, if it succeeds. -/
  stack : Option Nat

def ELF_MAGIC : Nat := 0x464C457F
def ELF_PROG_LOAD : Nat := 1
def ELFHDRSZ : Nat := 64
def PROGHDRSZ : Nat := 56

/-- Load a program segment; whether all of it could be read. -/
def loadseg (ip : Fin NINODE) (offset sz : Nat) : Op Bool := do
  let failed ← Code.search (fun k => do
    let n := min (sz - k * PGSIZE) PGSIZE
    let (r, _) ← readi ip (fun _ => true) (UInt32.ofNat (offset + k * PGSIZE)) (UInt32.ofNat n)
    if r ≠ n then pure (some ()) else pure none) (List.range ((sz + PGSIZE - 1) / PGSIZE))
  pure failed.isNone

/-- The treatment of one program header; whether it can be loaded. -/
def loadProg (ip : Fin NINODE) (mem : ExecMem) (phoff i : Nat) : Op Bool := do
  let (r, out) ← readi ip (fun _ => true) (UInt32.ofNat (phoff + i * PROGHDRSZ))
    (UInt32.ofNat PROGHDRSZ)
  let ph := cstr out
  let vaddr := getLE 8 16 ph
  let filesz := getLE 8 32 ph
  let memsz := getLE 8 40 ph
  if r ≠ PROGHDRSZ then pure false
  else if getLE 4 0 ph ≠ ELF_PROG_LOAD then pure true
  else if memsz < filesz then pure false
  else if vaddr + memsz ≥ 2 ^ 64 then pure false
  else if vaddr % PGSIZE ≠ 0 then pure false
  else if mem.uvmalloc i = false then pure false
  else loadseg ip (getLE 8 8 ph % 2 ^ 32) (filesz % 2 ^ 32)

/-- The part of `exec` that reads the program file; whether the program could be loaded. -/
def execLoad (ip : Fin NINODE) (mem : ExecMem) : Op Bool := do
  let (r, out) ← readi ip (fun _ => true) 0 (UInt32.ofNat ELFHDRSZ)
  let elf := cstr out
  if r ≠ ELFHDRSZ then pure false
  else if getLE 4 0 elf ≠ ELF_MAGIC then pure false
  else if mem.proc_pagetable = false then pure false
  else do
    let failed ← Code.search (fun i => do
      if ← loadProg ip mem (getLE 8 32 elf) i then pure none else pure (some ()))
      (List.range (getLE 2 56 elf))
    pure failed.isNone

def exec (path : List UInt8) (mem : ExecMem) : Op Int := do
  beginOp
  match ← namei path with
  | none => fail
  | some ip => do
    ilock ip
    if ← execLoad ip mem then do
      iunlockput ip
      endOp
      match mem.stack with
      | some argc => pure argc
      | none => pure (-1)
    else do
      iunlockput ip
      fail

/-- The system call, once its arguments have been copied. -/
def sysExec (path : Option (List UInt8)) (mem : ExecMem) : Op Int :=
  match argstr path MAXPATH with
  | none => pure (-1)
  | some path => exec path mem

end Op

/-! ### Calls -/

/-- The system calls on files, with their arguments and what they learn from the rest of the
kernel. -/
inductive SysCall (P : Type) where
  | open (path : Option (List UInt8)) (omode : UInt32)
  | dup (fd : Fin NOFILE)
  | read (fd : Fin NOFILE) (dst : Nat → Bool) (n : UInt32) (drv : Op.Drivers)
  | write (fd : Fin NOFILE) (src : Nat → Option UInt8) (n : Int) (drv : Op.Drivers)
  | close (fd : Fin NOFILE)
  | link (old new : Option (List UInt8))
  | unlink (path : Option (List UInt8))
  | mkdir (path : Option (List UInt8))
  | mknod (path : Option (List UInt8)) (major minor : Int16)
  | chdir (path : Option (List UInt8))
  | rename (old new : Option (List UInt8))
  | exec (path : Option (List UInt8)) (mem : Op.ExecMem)
  | exit
  | fork (np : Option P) (uvmcopy : Bool) (pid : Nat)

/-- A call of process `p`, run without interruption. -/
def SysCall.perform {P : Type} [DecidableEq P] (p : P) : SysCall P → SysM P Int
  | .open path omode => (Op.sysOpen path omode).run (den p)
  | .dup fd => (Op.sysDup fd).run (den p)
  | .read fd dst n drv => (Op.sysRead fd dst n drv).run (den p)
  | .write fd src n drv => (Op.sysWrite fd src n drv).run (den p)
  | .close fd => (Op.sysClose fd).run (den p)
  | .link old new => (Op.sysLink old new).run (den p)
  | .unlink path => (Op.sysUnlink path).run (den p)
  | .mkdir path => (Op.sysMkdir path).run (den p)
  | .mknod path major minor => (Op.sysMknod path major minor).run (den p)
  | .chdir path => (Op.sysChdir path).run (den p)
  | .rename old new => (Op.sysRename old new).run (den p)
  | .exec path mem => (Op.sysExec path mem).run (den p)
  | .exit => (Op.exit).run (den p)
  | .fork np uvmcopy pid => Fs.fork p np uvmcopy pid

end FypOs.Fs
