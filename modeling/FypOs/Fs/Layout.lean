import FypOs.Param
import FypOs.Lib.Bytes

/-!
# Fs — the on-disk format

The structures of `kernel/fs.h`: where the super block puts the inodes and the free bit map, a disk
inode and a directory entry as bytes of a block.
-/

namespace FypOs.Fs

open Lib

/-- Root i-number. -/
def ROOTINO : Nat := 1

/-- Number of direct addresses of an inode. -/
def NDIRECT : Nat := 12

scoped instance (priority := 2000) neZeroAddrs : NeZero (NDIRECT + 1) := ⟨by decide⟩

/-- Number of addresses in an indirect block, `BSIZE / sizeof(uint)`. -/
def NINDIRECT : Nat := BSIZE / 4

/-- Largest number of blocks of a file. -/
def MAXFILE : Nat := NDIRECT + NINDIRECT

/-- `sizeof(struct dinode)`. -/
def DINODESZ : Nat := 64

/-- Inodes per block. -/
def IPB : Nat := BSIZE / DINODESZ

/-- Bitmap bits per block. -/
def BPB : Nat := BSIZE * 8

/-- Length of a name in a directory entry. -/
def DIRSIZ : Nat := 14

/-- `sizeof(struct dirent)`. -/
def DIRENTSZ : Nat := 16

/-! File types, `kernel/stat.h`. -/

def T_DIR : Int16 := 1
def T_FILE : Int16 := 2
def T_DEVICE : Int16 := 3

/-- The fields of the super block the file system reads, and `nblocks`, from which the first data
block is known. -/
structure Superblock where
  size : Nat
  nblocks : Nat
  ninodes : Nat
  inodestart : Nat
  bmapstart : Nat
  deriving DecidableEq, Repr

namespace Superblock

variable (sb : Superblock)

/-- Block containing inode `i`. -/
def IBLOCK (i : Nat) : Nat := i / IPB + sb.inodestart

/-- Block of the free map containing the bit for block `b`. -/
def BBLOCK (b : Nat) : Nat := b / BPB + sb.bmapstart

/-- The first data block. -/
def dataStart : Nat := sb.size - sb.nblocks

/-- `b` is a data block. -/
def Data (b : Nat) : Prop := sb.dataStart ≤ b ∧ b < sb.size

instance (b : Nat) : Decidable (sb.Data b) := inferInstanceAs (Decidable (_ ∧ _))

/-- The disk is laid out as `mkfs` does it: inode blocks, free bit map, data blocks, each area
large enough for what it has to hold. -/
structure Layout : Prop where
  inodes : sb.ninodes ≤ IPB * (sb.bmapstart - sb.inodestart)
  bitmap : sb.size ≤ BPB * (sb.dataStart - sb.bmapstart)
  first : 0 < sb.inodestart
  data : sb.inodestart ≤ sb.bmapstart ∧ sb.bmapstart ≤ sb.dataStart
  root : ROOTINO < sb.ninodes
  /-- Block numbers fit in an `int`. -/
  small : sb.size < 2 ^ 31

namespace Layout

variable {sb} (h : sb.Layout) {i : Nat} {b : Nat}

include h

lemma iblock_lt (hi : i < sb.ninodes) : sb.IBLOCK i < sb.bmapstart := by
  have h1 := h.inodes
  have h2 := h.data
  simp only [IBLOCK, IPB, BSIZE, DINODESZ] at h1 ⊢
  omega

lemma bblock_lt (hb : b < sb.size) : sb.BBLOCK b < sb.dataStart := by
  have h1 := h.bitmap
  have h2 := h.data
  simp only [BBLOCK, BPB, BSIZE] at h1 ⊢
  omega

lemma dataStart_pos : 0 < sb.dataStart := by
  have h1 := h.first
  have h2 := h.data
  omega

lemma not_data_zero : ¬ sb.Data 0 := fun ⟨h0, _⟩ => absurd h.dataStart_pos (by omega)

lemma iblock_ne_bblock (hi : i < sb.ninodes) (b : Nat) : sb.IBLOCK i ≠ sb.BBLOCK b :=
  Nat.ne_of_lt (Nat.lt_of_lt_of_le (h.iblock_lt hi) (Nat.le_add_left _ _))

lemma iblock_ne_data {i b : Nat} (hi : i < sb.ninodes) (hb : sb.Data b) : sb.IBLOCK i ≠ b :=
  Nat.ne_of_lt (Nat.lt_of_lt_of_le (h.iblock_lt hi) (Nat.le_trans h.data.2 hb.1))

lemma bblock_ne_data {b c : Nat} (hb : b < sb.size) (hc : sb.Data c) : sb.BBLOCK b ≠ c :=
  Nat.ne_of_lt (Nat.lt_of_lt_of_le (h.bblock_lt hb) hc.1)

lemma lt_two_pow (hb : b < sb.size) : b < 2 ^ 32 :=
  Nat.lt_trans hb (Nat.lt_trans h.small (by decide))

end Layout

end Superblock

/-! ### Disk inodes -/

/-- `struct dinode`. -/
structure Dinode where
  type : Int16
  major : Int16
  minor : Int16
  nlink : Int16
  size : UInt32
  addrs : Fin (NDIRECT + 1) → UInt32
  deriving DecidableEq

/-- The `short` in two bytes. -/
def short (v : Nat) : Int16 := Int16.ofNat v

/-- The two bytes of a `short`, as a number. -/
def unshort (x : Int16) : Nat := x.toBitVec.toNat

lemma short_unshort (x : Int16) : short (unshort x % 256 ^ 2) = x := by
  have hlt : unshort x < 256 ^ 2 := x.toBitVec.isLt
  rw [Nat.mod_eq_of_lt hlt, ← Int16.toBitVec_inj]
  exact BitVec.ofNat_toNat 16 x.toBitVec |>.trans (BitVec.setWidth_eq _)

lemma ofNat_toNat_mod (x : UInt32) : UInt32.ofNat (x.toNat % 256 ^ 4) = x := by
  have hlt : x.toNat < 256 ^ 4 := x.toNat_lt
  rw [Nat.mod_eq_of_lt hlt, UInt32.ofNat_toNat]

namespace Dinode

/-- An inode with every field zero but its type. -/
def blank (type : Int16) : Dinode := ⟨type, 0, 0, 0, 0, fun _ => 0⟩

/-- Byte `j` of the structure. -/
def byte (d : Dinode) (j : Nat) : UInt8 :=
  if j < 2 then UInt8.ofNat (unshort d.type / 256 ^ j)
  else if j < 4 then UInt8.ofNat (unshort d.major / 256 ^ (j - 2))
  else if j < 6 then UInt8.ofNat (unshort d.minor / 256 ^ (j - 4))
  else if j < 8 then UInt8.ofNat (unshort d.nlink / 256 ^ (j - 6))
  else if j < 12 then UInt8.ofNat (d.size.toNat / 256 ^ (j - 8))
  else UInt8.ofNat ((d.addrs (Fin.ofNat _ ((j - 12) / 4))).toNat / 256 ^ ((j - 12) % 4))

end Dinode

/-- The inode with index `k` of a block of inodes, `(struct dinode*)bp->data + k`. -/
def getDinode (b : Block) (k : Nat) : Dinode where
  type := short (getLE 2 (DINODESZ * k) b)
  major := short (getLE 2 (DINODESZ * k + 2) b)
  minor := short (getLE 2 (DINODESZ * k + 4) b)
  nlink := short (getLE 2 (DINODESZ * k + 6) b)
  size := UInt32.ofNat (getLE 4 (DINODESZ * k + 8) b)
  addrs i := UInt32.ofNat (getLE 4 (DINODESZ * k + 12 + 4 * i) b)

/-- Store an inode at index `k` of a block of inodes. -/
def putDinode (b : Block) (k : Nat) (d : Dinode) : Block := fun j =>
  if DINODESZ * k ≤ j ∧ j < DINODESZ * (k + 1) then d.byte (j - DINODESZ * k) else b j

variable {d : Dinode} {b : Block}

lemma putDinode_apply {k j : Nat} (hj : j < DINODESZ) : putDinode b k d (DINODESZ * k + j) = d.byte j := by
  rw [putDinode, if_pos ⟨Nat.le_add_right _ _, by rw [Nat.mul_succ]; omega⟩, Nat.add_sub_cancel_left]

lemma getLE_putDinode {k w o v : Nat} (ho : o + w ≤ DINODESZ)
    (hv : ∀ j, j < w → d.byte (o + j) = UInt8.ofNat (v / 256 ^ j)) :
    getLE w (DINODESZ * k + o) (putDinode b k d) = v % 256 ^ w :=
  getLE_of_bytes fun j hj => by
    rw [Nat.add_assoc, putDinode_apply (by omega), hv j hj]

lemma Dinode.byte_addrs (d : Dinode) (i : Fin (NDIRECT + 1)) {j : Nat} (hj : j < 4) :
    d.byte (12 + 4 * i + j) = UInt8.ofNat ((d.addrs i).toNat / 256 ^ j) := by
  have hi : Fin.ofNat (NDIRECT + 1) ((12 + 4 * i + j - 12) / 4) = i := by
    have hdiv : (12 + 4 * (i : Nat) + j - 12) / 4 = i := by omega
    rw [hdiv]
    exact Fin.ofNat_val_eq_self i
  have hmod : (12 + 4 * (i : Nat) + j - 12) % 4 = j := by omega
  simp only [Dinode.byte, hi, hmod]
  rw [if_neg (by omega), if_neg (by omega), if_neg (by omega), if_neg (by omega), if_neg (by omega)]

lemma getDinode_putDinode_self (b : Block) (k : Nat) (d : Dinode) : getDinode (putDinode b k d) k = d := by
  have htype := getLE_putDinode (b := b) (k := k) (w := 2) (o := 0) (v := unshort d.type) (d := d)
    (by decide) fun j hj => by
      simp only [Dinode.byte, Nat.zero_add]
      rw [if_pos hj]
  have hmajor := getLE_putDinode (b := b) (k := k) (w := 2) (o := 2) (v := unshort d.major) (d := d)
    (by decide) fun j hj => by
      simp only [Dinode.byte, Nat.add_sub_cancel_left]
      rw [if_neg (by omega), if_pos (by omega)]
  have hminor := getLE_putDinode (b := b) (k := k) (w := 2) (o := 4) (v := unshort d.minor) (d := d)
    (by decide) fun j hj => by
      simp only [Dinode.byte, Nat.add_sub_cancel_left]
      rw [if_neg (by omega), if_neg (by omega), if_pos (by omega)]
  have hnlink := getLE_putDinode (b := b) (k := k) (w := 2) (o := 6) (v := unshort d.nlink) (d := d)
    (by decide) fun j hj => by
      simp only [Dinode.byte, Nat.add_sub_cancel_left]
      rw [if_neg (by omega), if_neg (by omega), if_neg (by omega), if_pos (by omega)]
  have hsize := getLE_putDinode (b := b) (k := k) (w := 4) (o := 8) (v := d.size.toNat) (d := d)
    (by decide) fun j hj => by
      simp only [Dinode.byte, Nat.add_sub_cancel_left]
      rw [if_neg (by omega), if_neg (by omega), if_neg (by omega), if_neg (by omega), if_pos (by omega)]
  have haddrs (i : Fin (NDIRECT + 1)) := getLE_putDinode (b := b) (k := k) (w := 4)
    (o := 12 + 4 * i) (v := (d.addrs i).toNat) (d := d)
    (by have := i.isLt; simp only [NDIRECT, DINODESZ] at this ⊢; omega)
    fun j hj => d.byte_addrs i hj
  simp only [Nat.add_zero, ← Nat.add_assoc] at htype haddrs
  simp only [getDinode, htype, hmajor, hminor, hnlink, hsize, haddrs, short_unshort, ofNat_toNat_mod]

/-- The fields of an inode are read from its own bytes. -/
lemma getDinode_congr {b b' : Block} {k : Nat}
    (h : ∀ j, DINODESZ * k ≤ j → j < DINODESZ * (k + 1) → b j = b' j) :
    getDinode b k = getDinode b' k := by
  have hget {w o : Nat} (ho : o + w ≤ DINODESZ) :
      getLE w (DINODESZ * k + o) b = getLE w (DINODESZ * k + o) b' :=
    getLE_congr fun j h1 h2 => h j (by omega) (by rw [Nat.mul_succ]; omega)
  have haddrs (i : Fin (NDIRECT + 1)) := hget (w := 4) (o := 12 + 4 * i)
    (by have := i.isLt; simp only [NDIRECT, DINODESZ] at this ⊢; omega)
  have htype := hget (w := 2) (o := 0) (by decide)
  simp only [← Nat.add_assoc, Nat.add_zero] at haddrs htype
  simp only [getDinode, htype, haddrs, hget (w := 2) (o := 2) (by decide),
    hget (w := 2) (o := 4) (by decide), hget (w := 2) (o := 6) (by decide),
    hget (w := 4) (o := 8) (by decide)]

lemma getDinode_putDinode_of_ne {k k' : Nat} (h : k' ≠ k) : getDinode (putDinode b k d) k' = getDinode b k' :=
  getDinode_congr fun j h1 h2 => if_neg fun ⟨h3, h4⟩ => by
    simp only [DINODESZ] at h1 h2 h3 h4
    omega

end FypOs.Fs
