import FypOs.Dev.Console
import FypOs.Ipc.Pipe

/-!
# Dev — input that is lost

`piperead` and `consoleread` take a byte from their buffer before they copy it to the user.

* `input_delivered`: when they have taken as many bytes as they return.
-/

namespace FypOs.Dev

open Lib List UInt32

/-- `copyout` to a destination that is unwritable after `i` bytes. -/
def writable (i k : Nat) : Bool := decide (k < i)

lemma readLoop_unwritable {i k : Nat} (rest : Nat) (hk : k ≤ i) (pi : Ipc.Pipe) : ∃ m a,
    (Ipc.readLoop (writable i) rest k pi).2.2 = .ret ((k + m : Nat) : Int) ∧
    (Ipc.readLoop (writable i) rest k pi).1.nread = pi.nread + ofNat a ∧
    m = min rest (min (gap pi.nread pi.nwrite) (i - k)) ∧
    a = min rest (min (gap pi.nread pi.nwrite) (i - k + 1)) := by
  induction rest generalizing k pi with
  | zero => exact ⟨0, 0, rfl, (UInt32.add_zero _).symm, by omega, by omega⟩
  | succ rest ih =>
    rw [Ipc.readLoop]
    split_ifs with hempty hfail
    · rw [gap_eq_zero.mpr hempty]
      exact ⟨0, 0, rfl, (UInt32.add_zero _).symm, by omega, by omega⟩
    · have hgap := gap_succ_left hempty
      have hki := of_decide_eq_false hfail
      exact ⟨0, 1, rfl, rfl, by omega, by omega⟩
    · have hgap := gap_succ_left hempty
      have hki : k < i := by simpa [writable] using hfail
      obtain ⟨m, a, hret, hread, hm, ha⟩ := ih (Nat.succ_le_of_lt hki) pi.remove
      rw [Ipc.Pipe.remove] at hread hm ha
      refine ⟨m + 1, a + 1, hret.trans (by rw [Nat.succ_add_eq_add_succ]), hread.trans ?_, ?_, ?_⟩
      · rw [Nat.add_comm, UInt32.ofNat_add, ← UInt32.add_assoc]
        rfl
      · dsimp only at hm
        omega
      · dsimp only at ha
        omega

/-- The bytes that can be read. -/
def Cons.queue (s : Cons) : List UInt8 := window s.buf INPUT_BUF_SIZE s.r (gap s.r s.w)

/-- The bytes before the end of a line. -/
def line (q : List UInt8) : List UInt8 := q.takeWhile fun c => c ≠ newline ∧ c ≠ ctrl 'D'

/-- With `n` bytes to go after `got`, a read of `q` ends before it comes to byte `k`, and does not begin at an end of
file. -/
def Ends (k n : Nat) (got q : List UInt8) : Prop :=
  (n ≤ k ∨ (line q).length < k ∨ q[k]? = none ∨ q[k]? = some (ctrl 'D')) ∧
    (got = [] → 0 < n → q.head? ≠ some (ctrl 'D'))

lemma queue_cons {s : Cons} (h : s.r ≠ s.w) :
    s.queue = s.buf (slotOf INPUT_BUF_SIZE s.r) :: Cons.queue { s with r := s.r + 1 } := by
  rw [Cons.queue, ← gap_succ_left h, window_pop]
  rfl

lemma consoleread_unwritable {i target n : Nat} {got got' : List UInt8} (killed : Bool) (s : Cons)
    (htarget : got.length + n = target) (hi : got.length ≤ i)
    {r : Cons × Leaves} (hr : consoleread (fun m => writable i (target - m)) killed target n got s = r)
    (h : r.2 = .ret got' ∨ ∃ m, r.2 = .sleep m got') : ∃ a, r.1.r = s.r + ofNat a ∧
      a ≤ gap s.r s.w ∧ (a + got.length = got'.length ↔ Ends (i - got.length) n got s.queue) := by
  induction n generalizing got s r with
  | zero =>
    subst hr
    obtain rfl : got = got' := by simpa [consoleread] using h
    exact ⟨0, (UInt32.add_zero _).symm, Nat.zero_le _, by simp [Ends]⟩
  | succ n ih =>
    subst hr
    by_cases hempty : s.r = s.w
    · rw [consoleread, if_pos hempty] at h ⊢
      obtain rfl : got = got' := by
        cases killed <;> simp at h
        exact h
      have hq : s.queue = [] := by rw [Cons.queue, gap_eq_zero.mpr hempty]; rfl
      exact ⟨0, (UInt32.add_zero _).symm, Nat.zero_le _, by simp [Ends, hq]⟩
    have hgap := gap_succ_left hempty
    rw [queue_cons hempty]
    rw [consoleread, if_neg hempty] at h ⊢
    dsimp only at h ⊢
    generalize s.buf (slotOf INPUT_BUF_SIZE s.r) = c at h ⊢
    by_cases hD : c = ctrl 'D'
    · rw [if_pos hD] at h ⊢
      obtain rfl : got = got' := by simpa using h
      by_cases hnil : got = []
      · refine ⟨1, ?_, by omega, by simp [Ends, hnil, hD]⟩
        rw [if_neg (by rw [← htarget, hnil]; simp)]
        rfl
      · have := length_pos_iff.mpr hnil
        refine ⟨0, ?_, Nat.zero_le _, ?_⟩
        · rw [if_pos (by omega)]
          exact (by grind : s.r + 1 - 1 = s.r).trans (UInt32.add_zero _).symm
        · cases hk : i - got.length <;> simp [Ends, hnil, hD, line]
    rw [if_neg hD] at h ⊢
    by_cases hfail : got.length = i
    · rw [if_pos (by simp [writable]; omega)] at h ⊢
      obtain rfl : got = got' := by simpa using h
      exact ⟨1, rfl, by omega, by simp [Ends, hfail, hD]⟩
    rw [if_neg (by simp [writable]; omega)] at h ⊢
    obtain ⟨k, hk⟩ := Nat.exists_eq_succ_of_ne_zero (show i - got.length ≠ 0 by omega)
    by_cases hnl : c = newline
    · rw [if_pos hnl] at h ⊢
      obtain rfl : got ++ [c] = got' := by simpa using h
      refine ⟨1, rfl, by omega, ?_⟩
      simp [Ends, hk, hnl, line, show newline ≠ ctrl 'D' by decide, Nat.add_comm]
    · rw [if_neg hnl] at h ⊢
      have hlen : (got ++ [c]).length = got.length + 1 := length_append
      obtain ⟨a, hr, hle, hiff⟩ := ih { s with r := s.r + 1 } (by omega) (by omega) rfl h
      refine ⟨a + 1, hr.trans ?_, by dsimp only at hle; omega, ?_⟩
      · rw [Nat.add_comm, UInt32.ofNat_add, ← UInt32.add_assoc]
        rfl
      · rw [hlen, show i - (got.length + 1) = k by omega] at hiff
        rw [hk, Nat.add_right_comm, Nat.add_assoc, hiff]
        simp [Ends, line, hnl, hD]

/-- **Delivery.**  A read whose destination becomes unwritable after `i` bytes has taken as many bytes as it returns
exactly if it ends before it comes to the byte that cannot be copied.  A read of the console takes an end of file, too,
that it begins with. -/
theorem input_delivered (i : Nat) (killed : Bool) :
    (∀ (pi : Ipc.Pipe) (n j : Nat) r, Ipc.piperead (writable i) killed n pi = r → r.2.2 = .ret j →
      (gap pi.nread r.1.nread = j ↔ n ≤ i ∨ gap pi.nread pi.nwrite ≤ i)) ∧
    ∀ (s : Cons) (target n : Nat) (got got' : List UInt8) r, got.length + n = target → got.length ≤ i →
      consoleread (fun m => writable i (target - m)) killed target n got s = r →
      (r.2 = .ret got' ∨ ∃ m, r.2 = .sleep m got') →
      (gap s.r r.1.r + got.length = got'.length ↔ Ends (i - got.length) n got s.queue) := by
  constructor
  · rintro pi n j _ rfl h
    have hlt := gap_lt pi.nread pi.nwrite
    rw [Ipc.piperead] at h ⊢
    split_ifs at h ⊢ with hwait hkilled
    · cases h
    · obtain ⟨m, a, hret, hread, hm, ha⟩ := readLoop_unwritable n (Nat.zero_le i) pi
      rw [h] at hret
      cases hret
      rw [hread, gap_add_ofNat (by omega)]
      omega
  · intro s target n got got' r htarget hi hr h
    have hlt := gap_lt s.r s.w
    obtain ⟨a, ha, hle, hiff⟩ := consoleread_unwritable killed s htarget hi hr h
    rw [ha, gap_add_ofNat (by omega)]
    exact hiff

/-- A pipe, and a console, with the bytes `a` and `b`. -/
def samplePipe : Ipc.Pipe := ⟨fun k => if k = 0 then 97 else 98, 0, 2, true, false⟩

def sampleCons : Cons := ⟨fun k => if k = 0 then 97 else 98, 0, 2, 2⟩

theorem input_delivered_two : gap 0 (Ipc.piperead (writable 5) false 3 samplePipe).1.nread = 2 ∧
      gap 0 (consoleread (fun m => writable 2 (2 - m)) false 2 2 [] sampleCons).1.r = 2 := by
  refine ⟨((input_delivered 5 false).1 samplePipe 3 2 _ rfl (by decide)).mpr (.inr (by decide)), ?_⟩
  exact ((input_delivered 2 false).2 sampleCons 2 2 [] [97, 98] _ rfl (by decide) rfl (.inl (by decide))).mpr
    ⟨.inl (by decide), fun _ _ => by decide⟩

/-- A read of one byte that cannot be copied returns nothing, and the next read does not find the byte. -/
theorem input_lost : (Ipc.piperead (fun _ => false) false 1 samplePipe).2.2 = .ret 0 ∧
    (Ipc.piperead (fun _ => true) false 2 (Ipc.piperead (fun _ => false) false 1 samplePipe).1).2 = ([98], .ret 1) ∧
    (consoleread (fun _ => false) false 1 1 [] sampleCons).2 = .ret [] ∧
    (consoleread (fun _ => true) false 1 1 [] (consoleread (fun _ => false) false 1 1 [] sampleCons).1).2 =
      .ret [98] := by decide

end FypOs.Dev
