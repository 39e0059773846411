import FypOs.Fs.Logged
import FypOs.Fs.Rounds

/-!
# Fs — a file is an array of bytes

`writei` and `readi` split a request at the boundaries of blocks and map each block on its own.  Seen
from outside, a file is the list of its bytes: a write replaces a part of it, or adds to its end, and a
read returns a part of it.

* `byte_array`: what `writei` does to the contents of all files, and what `readi` returns then.
-/

namespace FypOs.Fs

open Lib Prog

section

variable {s s' : State} {i : Fin NINODE} {src : Nat → Option UInt8}

/-- The bytes of a file from `lo` on, `n` at most. -/
lemma bytes_readCount (s : State) (m : Nat) (off n : UInt32) (h : off.toNat + n.toNat < 2 ^ 32) :
    s.bytes m off.toNat (off.toNat + readCount (s.dinode m).size off n) =
      ((s.contents m).drop off.toNat).take n.toNat := by
  have hlen := length_contents s m
  refine List.ext_getElem ?_ fun k h1 h2 => ?_
  · simp only [State.bytes, List.length_map, List.length_range', List.length_take, List.length_drop, hlen,
      readCount]
    split <;> omega
  · rw [List.getElem_take, List.getElem_drop, getElem_contents]
    simp [State.bytes]

/-- `readi` returns the bytes that are asked for, as far as there are any; nothing, if the end of the request
is not a 32-bit number. -/
lemma readi_contents (h : Consistent s) (hi : Held s i) (hh : HoleFree s (s.itable i).inum)
    (off n : UInt32) {dst : Nat → Bool} (hdst : ∀ j, j < n.toNat → dst j = true) :
    ∃ out, readi i dst off n s = .ok ((out.length, out), s) ∧ out = if off.toNat + n.toNat < 2 ^ 32 then
        ((s.contents (s.itable i).inum).drop off.toNat).take n.toNat else [] := by
  have hd := (h.synced i hi).2
  obtain ⟨r, s', hrun, rfl, hr⟩ : ∃ r s', readi i dst off n s = .ok (r, s') ∧ _ :=
    (readi_spec h hi (fun k hk => hh.byte (hd ▸ hk)) off n).returns
  have hcount : readCount (s'.itable i).d.size off n ≤ n.toNat := by
    rw [readCount]
    split <;> omega
  rcases hr with rfl | ⟨-, hj, hno⟩
  · have hlen : (s'.bytes (s'.itable i).inum off.toNat
        (off.toNat + readCount (s'.itable i).d.size off n)).length = readCount (s'.itable i).d.size off n := by
      simp [State.bytes]
    refine ⟨_, by rw [hrun, hlen], ?_⟩
    rw [hd]
    split
    · exact bytes_readCount s' _ off n ‹_›
    · rw [readCount, if_neg fun h => ‹¬ _› h.2]
      simp [State.bytes]
  · rw [hdst _ (by omega)] at hno
    cases hno

/-- The first bytes of a source. -/
def sourceBytes (src : Nat → Option UInt8) (tot : Nat) : List UInt8 :=
  (List.range tot).map fun j => (src j).getD 0

lemma Written.contents_self {off n tot : Nat} (h : Consistent s) (hi : Held s i)
    (hw : Written s s' i src off n tot 0) (hoff : off ≤ (s.itable i).d.size.toNat) :
    s'.contents (s.itable i).inum = splice (s.contents (s.itable i).inum) off (sourceBytes src tot) := by
  have hd := (h.synced i hi).2
  obtain ⟨a, size, hd', hsize⟩ := hw.inode
  have hdin : (s'.dinode (s.itable i).inum).size = size := by
    rw [hw.frame.dinode hi hw.consistent, hd']
  refine contents_splice (p := 0) ?_ hw.byte (hd ▸ hoff) (.inl rfl)
  rw [hdin, hsize, hd]

/-- **A file is an array of bytes.**  `writei` refuses a request outside the file or the largest one; otherwise it
replaces the bytes from `off` on by those of the source, all of them unless the disk is full, and leaves the
other files alone.  `readi` returns then what the file holds, if the end of the request is a 32-bit number. -/
theorem byte_array (h : Consistent s) (hi : Held s i) (hh : HoleFree s (s.itable i).inum)
    (src : Nat → Option UInt8) (off n : UInt32) (hsrc : ∀ j, j < n.toNat → src j ≠ none) :
    ∃ r s', writei i src off n s = .ok (r, s') ∧
      (off.toNat > (s.contents (s.itable i).inum).length ∨ off.toNat + n.toNat ≥ 2 ^ 32 ∨
        off.toNat + n.toNat > MAXFILE * BSIZE → r = -1 ∧ s' = s) ∧
      (¬ (off.toNat > (s.contents (s.itable i).inum).length ∨ off.toNat + n.toNat ≥ 2 ^ 32 ∨
        off.toNat + n.toNat > MAXFILE * BSIZE) → ∃ tot : Nat, r = tot ∧ tot ≤ n.toNat ∧
          (tot < n.toNat → s'.Full) ∧
          s'.contents (s.itable i).inum = splice (s.contents (s.itable i).inum) off.toNat (sourceBytes src tot) ∧
          ∀ m, m < s.sb.ninodes → m ≠ (s.itable i).inum → s'.contents m = s.contents m) ∧
      ∀ (off' n' : UInt32) (dst : Nat → Bool), (∀ j, j < n'.toNat → dst j = true) →
        ∃ out, readi i dst off' n' s' = .ok ((out.length, out), s') ∧ out = if off'.toNat + n'.toNat < 2 ^ 32 then
            ((s'.contents (s.itable i).inum).drop off'.toNat).take n'.toNat else [] := by
  have hd := (h.synced i hi).2
  have hmax : MAXFILE * BSIZE < 2 ^ 32 := by decide
  rw [length_contents, ← hd]
  obtain ⟨r, s', hrun, hs⟩ := (writei_spec h hi src off n).returns
  refine ⟨r, s', hrun, ?_⟩
  rcases hs with ⟨hr, rfl, hno⟩ | ⟨⟨hoff, hend⟩, tot, p, hr, hw⟩
  · rw [Accepted] at hno
    exact ⟨fun _ => ⟨hr, rfl⟩, fun hyes => absurd ⟨by omega, by omega⟩ hno,
      fun off' n' dst hdst => readi_contents h hi hh off' n' hdst⟩
  · have hclean : Clean src off.toNat n.toNat := fun j hj hnone => absurd hnone (hsrc j hj)
    obtain rfl := hw.part_eq_zero hclean
    have hi' := hw.frame.held hi
    have hh' := hw.holeFree hi h hh hoff hend
    refine ⟨fun hno => by omega, fun _ => ⟨tot, hr, hw.le, fun hlt => ?_, hw.contents_self h hi hoff,
      fun m hm hne => (hw.frame.files m hm hne).contents⟩, fun off' n' dst hdst => ?_⟩
    · rcases hw.reason with htot | ⟨hlt', hnone⟩ | ⟨-, hfull, -⟩
      · omega
      · exact absurd hnone (hsrc _ hlt')
      · exact hfull
    · rw [← hw.frame.inum] at hh' ⊢
      exact readi_contents hw.consistent hi' hh' off' n' hdst

end

/-- Three bytes written to an empty file, and the last two of them read. -/
theorem byte_array_first : ∃ r s', writei 0 (fun _ => some 7) 0 3 (sample T_FILE 0) = .ok (r, s') ∧
    ∃ out, readi 0 (fun _ => true) 1 5 s' = .ok ((out.length, out), s') ∧
      out = ((s'.contents 1).drop 1).take 5 := by
  have hc : Consistent (sample T_FILE 0) := sample_consistent (by decide)
  obtain ⟨r, s', hrun, -, -, hread⟩ := byte_array (i := 0) hc (by decide) (sample_holeFree T_FILE)
    (fun _ => some 7) 0 3 fun _ _ => Option.some_ne_none _
  obtain ⟨out, ho, e⟩ := hread 1 5 (fun _ => true) fun _ _ => rfl
  exact ⟨r, s', hrun, out, ho, e⟩

/-- A file of two bytes: a read of all but the first one, whose length is too large for its end to be a 32-bit
number, returns nothing. -/
theorem readi_wraps : ∃ s', writei 0 (fun _ => some 7) 0 2 (sample T_FILE 0) = .ok (2, s') ∧
    s'.contents 1 = [7, 7] ∧ ∃ s'', readi 0 (fun _ => true) 1 (UInt32.ofNat (2 ^ 32 - 1)) s' = .ok ((0, []), s'') := by
  obtain ⟨s', hrun, hc, hread⟩ : ∃ s', writei 0 (fun _ => some 7) 0 2 (sample T_FILE 0) = .ok (2, s') ∧
      s'.contents 1 = [7, 7] ∧ ((readi 0 (fun _ => true) 1 (UInt32.ofNat (2 ^ 32 - 1)) s').test fun y =>
        y.1 = (0, [])) = true := Outcome.ok_of_test (by decide +kernel)
  exact ⟨s', hrun, hc, Outcome.returns_of_test hread⟩

end FypOs.Fs
