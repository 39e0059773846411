import FypOs.Fs.Layout
import FypOs.Lib.Prog

/-!
# Fs — blocks and inodes

The lower half of `kernel/fs.c`, as programs on the state of the file system: the block allocator,
the table of in-memory inodes, the map from a file's blocks to the disk, truncation, reading and
writing.

A block is seen through the buffer cache: `bread` returns what the cache holds, `poke` changes it in
place, and `logWrite` hands it to the running transaction, which `writes` records.  The code runs
for one process at a time, `me`; a sleep lock that another call holds makes it wait.
-/

namespace FypOs.Fs

open Lib

/-- `struct inode`: an entry of the table of in-memory inodes. -/
structure Inode where
  dev : Nat
  inum : Nat
  ref : Int
  /-- The process that holds the sleep lock. -/
  lock : Option Nat
  /-- The inode has been read from disk. -/
  valid : Bool
  /-- The copy of the disk inode. -/
  d : Dinode

/-- What the file system reads of `myproc()`. -/
structure Proc where
  pid : Nat
  cwd : Fin NINODE

structure State where
  sb : Superblock
  /-- The blocks of the disk, as the buffer cache shows them. -/
  blocks : Nat → Block
  /-- The calls of `log_write` so far, with the data they were made with. -/
  writes : List (Nat × Block)
  itable : Fin NINODE → Inode
  me : Proc

abbrev FsM (α : Type) : Type := Prog State α

/-! ### Buffers -/

/-- The state with the data of block `b` changed. -/
def State.poke (s : State) (b : Nat) (f : Block → Block) : State :=
  { s with blocks := Function.update s.blocks b (f (s.blocks b)) }

/-- The state with block `b` in the transaction. -/
def State.logged (s : State) (b : Nat) : State :=
  { s with writes := s.writes ++ [(b, s.blocks b)] }

def bread (b : Nat) : FsM Block := .reads fun s => s.blocks b

/-- Change the data of the buffer of block `b`. -/
def poke (b : Nat) (f : Block → Block) : FsM Unit := .modify fun s => s.poke b f

def logWrite (b : Nat) : FsM Unit := .modify fun s => s.logged b

/-! ### Blocks -/

/-- Zero a block. -/
def bzero (b : Nat) : FsM Unit := do
  poke b fun _ _ => 0
  logWrite b

/-- The first blocks the blocks of the free map are about: `0`, `BPB`, `2 * BPB`, … -/
def Superblock.groups (sb : Superblock) : List Nat :=
  (List.range ((sb.size + BPB - 1) / BPB)).map (· * BPB)

/-- The first clear bit of a block of the free map, among those of blocks `b`, `b + 1`, … -/
def Superblock.clearBit (sb : Superblock) (b : Nat) (data : Block) : Option Nat :=
  (List.range (min BPB (sb.size - b))).find? fun bi => !bitAt data bi

/-- Allocate a zeroed disk block; `0` if out of disk space. -/
def balloc : FsM Nat := do
  let sb ← .reads State.sb
  let found ← Prog.search (fun b => do
    let data ← bread (sb.BBLOCK b)
    match sb.clearBit b data with
    | some bi => do
      poke (sb.BBLOCK b) fun data => setBit data bi
      logWrite (sb.BBLOCK b)
      bzero (b + bi)
      pure (some (b + bi))
    | none => pure none) sb.groups
  pure (found.getD 0)

/-- Free a disk block. -/
def bfree (b : Nat) : FsM Unit := do
  let sb ← .reads State.sb
  let data ← bread (sb.BBLOCK b)
  if bitAt data (b % BPB) = false then .panic "freeing free block"
  else do
    poke (sb.BBLOCK b) fun data => clearBit data (b % BPB)
    logWrite (sb.BBLOCK b)

/-! ### The inode table -/

/-- The state with entry `i` of the table changed. -/
def State.setInode (s : State) (i : Fin NINODE) (f : Inode → Inode) : State :=
  { s with itable := Function.update s.itable i (f (s.itable i)) }

def inode (i : Fin NINODE) : FsM Inode := .reads fun s => s.itable i

def setInode (i : Fin NINODE) (f : Inode → Inode) : FsM Unit := .modify fun s => s.setInode i f

/-- Change a field that lives on disk, in the in-memory copy. -/
def setDinode (i : Fin NINODE) (f : Dinode → Dinode) : FsM Unit :=
  setInode i fun ip => { ip with d := f ip.d }

/-- The state with the address `k` of entry `i` changed. -/
def State.setAddr (s : State) (i : Fin NINODE) (k : Fin (NDIRECT + 1)) (b : Nat) : State :=
  s.setInode i fun ip =>
    { ip with d := { ip.d with addrs := Function.update ip.d.addrs k (UInt32.ofNat b) } }

def setAddr (i : Fin NINODE) (k : Fin (NDIRECT + 1)) (b : Nat) : FsM Unit :=
  .modify fun s => s.setAddr i k b

def acquiresleep (i : Fin NINODE) : FsM Unit := do
  let ip ← inode i
  let p ← .reads State.me
  if ip.lock = none then setInode i fun ip => { ip with lock := some p.pid } else .block

def releasesleep (i : Fin NINODE) : FsM Unit := setInode i fun ip => { ip with lock := none }

/-- Find the inode with number `inum` on device `dev` and return its entry, recycling an unused
one if it has none. -/
def iget (dev inum : Nat) : FsM (Fin NINODE) := do
  let t ← .reads State.itable
  match (List.finRange NINODE).find? fun j => 0 < (t j).ref ∧ (t j).dev = dev ∧ (t j).inum = inum with
  | some j => do
    setInode j fun ip => { ip with ref := ip.ref + 1 }
    pure j
  | none =>
    match (List.finRange NINODE).find? fun j => (t j).ref = 0 with
    | some j => do
      setInode j fun ip => { ip with dev := dev, inum := inum, ref := 1, valid := false }
      pure j
    | none => .panic "iget: no inodes"

/-- Increment the reference count. -/
def idup (i : Fin NINODE) : FsM (Fin NINODE) := do
  setInode i fun ip => { ip with ref := ip.ref + 1 }
  pure i

/-- Allocate an inode: the first free one on disk, with every field zero but its type. -/
def ialloc (dev : Nat) (type : Int16) : FsM (Option (Fin NINODE)) := do
  let sb ← .reads State.sb
  let found ← Prog.search (fun inum => do
    let data ← bread (sb.IBLOCK inum)
    if (getDinode data (inum % IPB)).type = 0 then do
      poke (sb.IBLOCK inum) fun data => putDinode data (inum % IPB) (.blank type)
      logWrite (sb.IBLOCK inum)
      pure (some inum)
    else pure none) (List.range' 1 (sb.ninodes - 1))
  match found with
  | some inum => do
    let i ← iget dev inum
    pure (some i)
  | none => pure none

/-- Copy a modified in-memory inode to disk. -/
def iupdate (i : Fin NINODE) : FsM Unit := do
  let ip ← inode i
  let sb ← .reads State.sb
  poke (sb.IBLOCK ip.inum) fun data => putDinode data (ip.inum % IPB) ip.d
  logWrite (sb.IBLOCK ip.inum)

/-- Lock the given inode, reading it from disk if necessary. -/
def ilock (i : Fin NINODE) : FsM Unit := do
  let ip ← inode i
  if ip.ref < 1 then .panic "ilock"
  else do
    acquiresleep i
    if ip.valid then pure ()
    else do
      let sb ← .reads State.sb
      let data ← bread (sb.IBLOCK ip.inum)
      let dip := getDinode data (ip.inum % IPB)
      setInode i fun ip => { ip with d := dip, valid := true }
      if dip.type = 0 then .panic "ilock: no type" else pure ()

/-- Unlock the given inode. -/
def iunlock (i : Fin NINODE) : FsM Unit := do
  let ip ← inode i
  let p ← .reads State.me
  if ip.lock ≠ some p.pid ∨ ip.ref < 1 then .panic "iunlock" else releasesleep i

/-! ### Inode content -/

/-- The address in `addrs[k]`, allocating a block if there is none; `bmap` does this for a direct
block and for the indirect one. -/
def bmapAddr (i : Fin NINODE) (k : Fin (NDIRECT + 1)) : FsM Nat := do
  let ip ← inode i
  if ip.d.addrs k = 0 then do
    let addr ← balloc
    if addr = 0 then pure 0
    else do
      setAddr i k addr
      pure addr
  else pure (ip.d.addrs k).toNat

/-- The entry `bn` of the indirect block `ind`, allocating a block if there is none. -/
def bmapEntry (ind bn : Nat) : FsM Nat := do
  let a ← bread ind
  if word a bn = 0 then do
    let addr ← balloc
    if addr = 0 then pure 0
    else do
      poke ind fun a => setWord a bn addr
      logWrite ind
      pure addr
  else pure (word a bn)

/-- The disk block address of the nth block of an inode, allocated if there is no such block; `0` if
out of disk space. -/
def bmap (i : Fin NINODE) (bn : Nat) : FsM Nat :=
  if h : bn < NDIRECT then bmapAddr i (Fin.castSucc ⟨bn, h⟩)
  else if bn - NDIRECT < NINDIRECT then do
    let ind ← bmapAddr i (Fin.last NDIRECT)
    if ind = 0 then pure 0 else bmapEntry ind (bn - NDIRECT)
  else .panic "bmap: out of range"

/-- Free the block of `addrs[k]`, if it has one. -/
def itruncAddr (i : Fin NINODE) (k : Fin (NDIRECT + 1)) : FsM Unit := do
  let ip ← inode i
  if ip.d.addrs k = 0 then pure ()
  else do
    bfree (ip.d.addrs k).toNat
    setAddr i k 0

/-- Free the blocks an indirect block lists. -/
def itruncEntries (ind : Nat) : FsM Unit :=
  Prog.forEach (fun j => do
    let a ← bread ind
    if word a j = 0 then pure () else bfree (word a j)) (List.range NINDIRECT)

/-- Free the indirect block, if there is one, and the blocks it lists. -/
def itruncIndirect (i : Fin NINODE) : FsM Unit := do
  let ip ← inode i
  if ip.d.addrs (Fin.last NDIRECT) = 0 then pure ()
  else do
    itruncEntries (ip.d.addrs (Fin.last NDIRECT)).toNat
    itruncAddr i (Fin.last NDIRECT)

/-- Truncate inode (discard contents). -/
def itrunc (i : Fin NINODE) : FsM Unit := do
  Prog.forEach (fun k => itruncAddr i (Fin.castSucc k)) (List.finRange NDIRECT)
  itruncIndirect i
  setDinode i fun d => { d with size := 0 }
  iupdate i

/-- Free an inode, and its content, on disk. -/
def iputFree (i : Fin NINODE) : FsM Unit := do
  acquiresleep i
  itrunc i
  setDinode i fun d => { d with type := 0 }
  iupdate i
  setInode i fun ip => { ip with valid := false }
  releasesleep i

/-- Drop a reference to an in-memory inode; if it was the last one and the inode has no links, free
the inode and its content on disk. -/
def iput (i : Fin NINODE) : FsM Unit := do
  let ip ← inode i
  (if ip.ref = 1 ∧ ip.valid = true ∧ ip.d.nlink = 0 then iputFree i else pure () : FsM Unit)
  setInode i fun ip => { ip with ref := ip.ref - 1 }

def iunlockput (i : Fin NINODE) : FsM Unit := do
  iunlock i
  iput i

/-- How many of the first `m` bytes from `tot` on can be accessed before the first that cannot. -/
def accessible (ok : Nat → Bool) (tot m : Nat) : Nat :=
  (List.range m).findIdx fun j => !ok (tot + j)

/-- The loop of `readi`: `tot` bytes, `out`, have been copied. -/
def readiLoop (i : Fin NINODE) (dst : Nat → Bool) (off n : Nat) :
    Nat → Nat → List UInt8 → FsM (Int × List UInt8)
  | 0, tot, out => pure (tot, out)
  | fuel + 1, tot, out =>
    if tot < n then do
      let addr ← bmap i ((off + tot) / BSIZE)
      if addr = 0 then pure (tot, out)
      else do
        let data ← bread addr
        let m := min (n - tot) (BSIZE - (off + tot) % BSIZE)
        let k := accessible dst tot m
        let bytes := (List.range k).map fun j => data ((off + tot) % BSIZE + j)
        if k < m then pure (-1, out ++ bytes)
        else readiLoop i dst off n fuel (tot + m) (out ++ bytes)
    else pure (tot, out)

/-- Read data from inode.  `dst j` says whether byte `j` of the destination can be written.  Returns
the result of the call and the bytes it copied. -/
def readi (i : Fin NINODE) (dst : Nat → Bool) (off n : UInt32) : FsM (Int × List UInt8) := do
  let ip ← inode i
  if off > ip.d.size ∨ off + n < off then pure (0, [])
  else
    let n := if off + n > ip.d.size then ip.d.size - off else n
    readiLoop i dst off.toNat n.toNat n.toNat 0 []

/-- The loop of `writei`: `tot` bytes have been written. -/
def writeiLoop (i : Fin NINODE) (src : Nat → Option UInt8) (off n : Nat) : Nat → Nat → FsM Nat
  | 0, tot => pure tot
  | fuel + 1, tot =>
    if tot < n then do
      let addr ← bmap i ((off + tot) / BSIZE)
      if addr = 0 then pure tot
      else do
        let m := min (n - tot) (BSIZE - (off + tot) % BSIZE)
        let k := accessible (fun j => (src j).isSome) tot m
        -- what could be copied is in the buffer, even when the copy fails
        poke addr fun data => overlay data ((off + tot) % BSIZE) (fun j => (src (tot + j)).getD 0) k
        if k < m then pure tot
        else do
          logWrite addr
          writeiLoop i src off n fuel (tot + m)
    else pure tot

/-- Write data to inode.  `src j` is byte `j` of the source, if it can be read.  Returns the number
of bytes successfully written. -/
def writei (i : Fin NINODE) (src : Nat → Option UInt8) (off n : UInt32) : FsM Int := do
  let ip ← inode i
  if off > ip.d.size ∨ off + n < off then pure (-1)
  else if (off + n).toNat > MAXFILE * BSIZE then pure (-1)
  else do
    let tot ← writeiLoop i src off.toNat n.toNat n.toNat 0
    setDinode i fun d =>
      if off.toNat + tot > d.size.toNat then { d with size := UInt32.ofNat (off.toNat + tot) } else d
    iupdate i
    pure tot

end FypOs.Fs
