import FypOs.Fs.Calls
import FypOs.Fs.Sys
import FypOs.Fs.Tree

/-!
# Fs — a small system

A disk of sixteen blocks with an empty root directory, and two processes in it: the system that runs
with fixed calls start from.
-/

namespace FypOs.Fs

open Lib

def bootSb : Superblock where
  size := 16
  nblocks := 12
  ninodes := 8
  inodestart := 2
  bmapstart := 3

/-- The root directory, with its block. -/
def bootRoot : Dinode :=
  { Dinode.blank T_DIR with nlink := 1, size := 32, addrs := fun k => if k = 0 then 4 else 0 }

/-- A disk with an empty root directory. -/
def bootFs : State where
  sb := bootSb
  blocks b :=
    if b = 2 then putDinode (fun _ => 0) 1 bootRoot
    else if b = 3 then putLE 1 0 31 fun _ => 0
    else if b = 4 then fun j => if j < 16 then mkDirent dot 1 j else mkDirent dotdot 1 (j - 16)
    else fun _ => 0
  writes := []
  itable i := if i = 0 then ⟨ROOTDEV, 1, 2, none, true, bootRoot⟩
    else ⟨0, 0, 0, none, false, .blank 0⟩
  me := ⟨1, 0⟩

/-- Two processes in the root directory of that disk, without open files. -/
def boot : Sys (Fin 2) where
  fs := bootFs
  ftable _ := ⟨.none, 0, false, false, 0, 0, 0⟩
  tasks p := ⟨true, ⟨p.val + 1, 0⟩, fun _ => none, 0⟩

/-- Calls that follow each other, each run without interruption; what they return. -/
def performAll {P : Type} [DecidableEq P] : List (P × SysCall P) → SysM P (List Int)
  | [] => pure []
  | (p, c) :: cs => do
    Prog.modify (·.switch p)
    let r ← c.perform p
    let rs ← performAll cs
    pure (r :: rs)

def firstFd : Fin NOFILE := ⟨0, by decide⟩

/-- Drivers that nobody calls. -/
def noDrivers : Op.Drivers := ⟨0, fun _ => none⟩

/-! ### It is sound -/

/-- The root directory is the only one, and has the only data block in use, which is the first. -/
structure RootOnly (s : State) : Prop where
  layout : s.sb.Layout
  data : s.sb.dataStart < s.sb.size
  root : Live s.sb 1 (s.dinode 1)
  addrs : ∀ n < s.sb.ninodes, ∀ k, ((s.dinode n).addrs k).toNat = if n = 1 ∧ k = 0 then s.sb.dataStart else 0
  size : ∀ n < s.sb.ninodes, (s.dinode n).size.toNat ≤ if n = 1 then BSIZE else 0
  dirs : ∀ n < s.sb.ninodes, (s.dinode n).type = T_DIR → n = 1
  whole : (s.dinode 1).size.toNat % DIRENTSZ = 0
  inum : ∀ off < (s.dinode 1).size.toNat, off % DIRENTSZ = 0 → direntInum (s.entry 1 off) < s.sb.ninodes
  bit : ∀ b < s.sb.size, s.bit b = decide (b ≤ s.sb.dataStart)

namespace RootOnly

variable {s : State} (h : RootOnly s)

include h

lemma disk (r : Ref) : s.disk r = if r = (1, .addr 0) then s.sb.dataStart else 0 := by
  obtain ⟨n, c⟩ := r
  by_cases hl : Live s.sb n (s.dinode n)
  · rw [State.disk, refs_of_live hl]
    cases c with
    | addr k => simp only [slot, h.addrs n hl.2.1, Prod.mk.injEq, Slot.addr.injEq]
    | entry j =>
      have hind : (s.dinode n).ind = 0 := (h.addrs n hl.2.1 _).trans (if_neg fun e => absurd e.2 (by decide))
      rw [slot_entry_of_ind hind, if_neg (by simp)]
  · rw [State.disk, refs_of_not_live hl, if_neg]
    rintro ⟨⟩
    exact hl h.root

lemma owns : Owns s s.disk := by
  have hof {r : Ref} (h0 : s.disk r ≠ 0) : r = (1, .addr 0) := by
    by_contra hne
    rw [h.disk, if_neg hne] at h0
    exact h0 rfl
  refine ⟨h.layout, ⟨fun b hb => ?_, fun r r' he h0 => ?_, fun r h0 => ?_, h.layout.not_data_zero⟩, fun b hb => ?_⟩
  · have hle := hb.1
    rw [h.bit b hb.2, decide_eq_true_iff]
    refine ⟨fun hlt => ⟨(1, .addr 0), ?_⟩, fun ⟨r, hr⟩ => ?_⟩
    · rw [h.disk, if_pos rfl]
      omega
    · rw [h.disk] at hr
      split at hr <;> omega
  · rw [hof h0, hof (r := r') (he ▸ h0)]
  · rw [hof h0, h.disk, if_pos rfl]
    exact ⟨Nat.le_refl _, h.data⟩
  · rw [h.bit b (hb.trans h.data)]
    exact decide_eq_true hb.le

lemma fileOk {n : Nat} (hl : Live s.sb n (s.dinode n)) : FileOk s n := by
  have hsize := h.size n hl.2.1
  by_cases hn : n = 1
  · subst hn
    rw [if_pos rfl] at hsize
    refine ⟨⟨hsize.trans (by decide), fun bn hbn => ?_⟩, fun _ =>
      ⟨Nat.dvd_of_mod_eq_zero h.whole, fun off hmod hlt => h.inum off hlt hmod⟩⟩
    obtain rfl : bn = 0 := by
      have : bn * BSIZE < 1 * BSIZE := by omega
      have := Nat.lt_of_mul_lt_mul_right this
      omega
    change s.disk (1, .addr 0) ≠ 0
    rw [h.disk, if_pos rfl]
    exact h.layout.dataStart_pos.ne'
  · rw [if_neg hn] at hsize
    exact ⟨⟨hsize.trans (Nat.zero_le _), fun bn hbn => by omega⟩, fun ht => absurd (h.dirs n hl.2.1 ht) hn⟩

end RootOnly

lemma boot_rootOnly : RootOnly bootFs :=
  ⟨⟨by decide, by decide, by decide, by decide, by decide, by decide⟩, by decide, by decide +kernel, by decide +kernel,
    by decide +kernel, by decide +kernel, by decide +kernel, by decide +kernel, by decide +kernel⟩

lemma boot_root : bootFs.dinode 1 = bootRoot := getDinode_putDinode_self ..

lemma boot_tree (n : Nat) : bootFs.tree n =
    if n = 1 then ⟨T_DIR, 1, [(1, nameStr dot), (1, nameStr dotdot)]⟩ else .free := by
  by_cases hn : n = 1
  · subst hn
    decide +kernel
  · have hfree : ∀ n < 8, n ≠ 1 → (bootFs.dinode n).type = 0 := by decide +kernel
    rw [if_neg hn, State.tree, if_neg fun hl => hl.2.2 (hfree n hl.2.1 hn)]

lemma boot_entry {i : Fin NINODE} (h : 0 < (bootFs.itable i).ref) : i = 0 := by
  by_contra hne
  simp only [bootFs, if_neg hne] at h
  exact absurd h (by decide)

lemma boot_sound : Sound bootFs := by
  refine ⟨⟨boot_rootOnly.owns, fun i hi => ?_, fun i j hi hj _ => ?_, fun i hi => ?_⟩, fun n => boot_rootOnly.fileOk,
    fun i hi => ?_⟩
  · rw [boot_entry hi.1]
    exact ⟨boot_rootOnly.root, boot_root.symm⟩
  · rw [boot_entry hi, boot_entry hj]
  · rw [boot_entry hi]
    rfl
  · rw [boot_entry hi]
    decide

end FypOs.Fs
