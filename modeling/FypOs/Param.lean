import Mathlib.Algebra.Order.Ring.Nat
import Mathlib.Data.Fintype.Card

/-!
# Param — constants, blocks and machine words

The constants of `kernel/param.h`, `kernel/fs.h` and `kernel/riscv.h` that several parts use, the
contents of a disk block, and the wrap-around of the C type `uint`.
-/

namespace FypOs

/-- Maximum number of processes. -/
def NPROC : Nat := 64

/-- Open files per process. -/
def NOFILE : Nat := 16

/-- Open files per system. -/
def NFILE : Nat := 100

/-- Maximum major device number. -/
def NDEV : Nat := 10

/-- Maximum number of active inodes. -/
def NINODE : Nat := 50

instance : NeZero NINODE := ⟨by decide⟩

/-- Maximum number of blocks any FS operation writes. -/
def MAXOPBLOCKS : Nat := 10

/-- Maximum number of data blocks in the on-disk log. -/
def LOGSIZE : Nat := MAXOPBLOCKS * 3

/-- Size of the disk block cache. -/
def NBUF : Nat := MAXOPBLOCKS * 3

/-- Device number of the file system's disk. -/
def ROOTDEV : Nat := 1

/-- Block size in bytes. -/
def BSIZE : Nat := 1024

/-- Bytes per page. -/
def PGSIZE : Nat := 4096

/-- The bytes of a block, `data[BSIZE]`.  Only the indices below `BSIZE` are ever accessed. -/
abbrev Block := Nat → UInt8

/-- The value a `uint` holds after `n` has been stored in it. -/
def u32 (n : Nat) : Nat := n % 2 ^ 32

/-- `x + 1` on a `uint`. -/
def uinc (x : Nat) : Nat := u32 (x + 1)

/-- `x - 1` on a `uint`; `0 - 1` wraps to the largest value. -/
def udec (x : Nat) : Nat := u32 (x + (2 ^ 32 - 1))

end FypOs
