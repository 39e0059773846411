import FypOs.Fs.Dir

/-!
# Fs — open files

The open files of `kernel/file.c`.  A file is an inode, a device or a pipe, with an offset that is
shared by the descriptors that refer to it.  `filewrite` writes in chunks of at most `filewriteMax`
bytes, and lets go of the inode between two of them.
-/

namespace FypOs.Fs

open Lib

inductive FdType where
  | none
  | pipe
  | inode
  | device
  deriving DecidableEq

structure File where
  type : FdType
  /-- Reference count. -/
  ref : Int
  readable : Bool
  writable : Bool
  ip : Fin NINODE
  off : UInt32
  major : Int16

/-- Reading from an inode: what `readi` returns, and the file with its offset moved on. -/
def filereadInode (f : File) (dst : Nat → Bool) (n : UInt32) : FsM ((Int × List UInt8) × File) := do
  ilock f.ip
  let r ← readi f.ip dst f.off n
  iunlock f.ip
  pure (r, if r.1 > 0 then { f with off := f.off + UInt32.ofNat r.1.toNat } else f)

/-- The most that `filewrite` writes in one transaction. -/
def filewriteMax : Nat := ((MAXOPBLOCKS - 1 - 1 - 2) / 2) * BSIZE

/-! ### Opening -/

def O_RDONLY : UInt32 := 0x000
def O_WRONLY : UInt32 := 0x001
def O_RDWR : UInt32 := 0x002
def O_CREATE : UInt32 := 0x200
def O_TRUNC : UInt32 := 0x400

/-- Whether the mode asks for writing. -/
def writing (omode : UInt32) : Bool := omode &&& O_WRONLY ≠ 0 ∨ omode &&& O_RDWR ≠ 0

/-- The part of `sys_open` that finds or makes the inode, and locks it. -/
def openInode (path : List UInt8) (omode : UInt32) : FsM (Option (Fin NINODE)) :=
  if omode &&& O_CREATE ≠ 0 then create path T_FILE 0 0
  else do
    match ← namei path with
    | none => pure none
    | some ip => do
      ilock ip
      let q ← inode ip
      if q.d.type = T_DIR ∧ omode ≠ O_RDONLY then do
        iunlockput ip
        pure none
      else pure (some ip)

/-- Truncate the file if that is asked for; where in the file to start. -/
def openOffset (ip : Fin NINODE) (omode : UInt32) : FsM UInt32 := do
  let q ← inode ip
  (if omode &&& O_TRUNC ≠ 0 ∧ q.d.type = T_FILE then itrunc ip else pure () : FsM Unit)
  -- appending, if the file is not to be truncated and is writable
  if omode &&& O_TRUNC = 0 ∧ writing omode = true then do
    let q ← inode ip
    pure q.d.size
  else pure 0

end FypOs.Fs
