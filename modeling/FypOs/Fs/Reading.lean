import FypOs.Dev.Console
import FypOs.Fs.Bytes
import FypOs.Fs.Runs
import FypOs.Ipc.Pipe

/-!
# Fs — reading through a descriptor

`fileread` reads from a pipe, from a device or from an inode, at the offset of the open file.
-/

namespace FypOs.Fs

open Lib Prog Function List Dev Ipc

/-! ### How much a read transfers -/

section

variable {s : State} {i : Fin NINODE} {dst : Nat → Bool}

/-- At most as many bytes as asked for, each of which the user can take. -/
def Fitting (dst : Nat → Bool) (n : Nat) (r : Int × List UInt8) : Prop :=
  r.1 ≤ n ∧ r.2.length ≤ n ∧ ∀ j < r.2.length, dst j = true

lemma readiLoop_fits {off n : Nat} (fuel : Nat) {tot : Nat} {out : List UInt8} (hout : out.length = tot)
    (hfit : Fitting dst n (tot, out)) :
    wp (readiLoop i dst off n fuel tot out) (fun r _ => Fitting dst n r) (fun _ => True) s := by
  induction fuel generalizing s tot out with
  | zero => exact hfit
  | succ fuel ih =>
    rw [readiLoop]
    refine wp_ite (fun hlt => ?_) fun _ => hfit
    rw [wp_bind]
    refine (wp_any _ _).post fun addr s1 _ => wp_ite (fun _ => hfit) fun _ => ?_
    dsimp only
    rw [wp_bind, wp_bread]
    have hleft := Nat.min_le_left (n - tot) (BSIZE - (off + tot) % BSIZE)
    generalize min (n - tot) (BSIZE - (off + tot) % BSIZE) = m at hleft ⊢
    have hacc := accessible_le dst tot m
    have hok : ∀ j < tot + accessible dst tot m, dst j = true := fun j hj => by
      by_cases hj' : j < tot
      · exact hfit.2.2 j (hout ▸ hj')
      · have : dst (tot + (j - tot)) = true := accessible_ok (m := m) (by omega)
        rwa [Nat.add_sub_cancel' (Nat.le_of_not_lt hj')] at this
    refine wp_ite (fun _ => ?_) fun hall => ih ?_ ?_
    · refine wp_pure.mpr ⟨?_, ?_⟩ <;> simp only [length_append, length_map, length_range, hout]
      · omega
      · exact ⟨by omega, hok⟩
    · simp only [length_append, length_map, length_range]
      omega
    · refine ⟨?_, ?_⟩ <;> simp only [length_append, length_map, length_range, hout]
      · omega
      · exact ⟨by omega, hok⟩

lemma readi_fits (off n : UInt32) : wp (readi i dst off n) (fun r _ => Fitting dst n.toNat r) (fun _ => True) s := by
  have hnil (k : Nat) : Fitting dst k (0, []) := ⟨Int.natCast_nonneg _, Nat.zero_le _, nofun⟩
  simp only [readi, wp_bind, wp_inode]
  refine wp_ite (fun _ => hnil _) fun hyes => ?_
  refine (readiLoop_fits _ List.length_nil (hnil _)).post fun r _ h => ?_
  have hle : readCount (s.itable i).d.size off n ≤ n.toNat := by
    rw [readCount]
    split <;> omega
  rw [readCount_eq hyes] at h
  exact ⟨h.1.trans (by omega), h.2.1.trans hle, h.2.2⟩

end

lemma toNat_toUInt32 (n : Int32) :
    (n.toUInt32.toNat : Int) = if 0 ≤ n.toInt then n.toInt else n.toInt + 2 ^ 32 := by
  have e : n.toInt = BitVec.toInt n.toBitVec := rfl
  have e' : n.toUInt32.toNat = n.toBitVec.toNat := rfl
  rw [e, e', BitVec.toInt_eq_toNat_cond]
  split <;> omega

lemma filereadInode_fits (f : File) (dst : Nat → Bool) (s : State) (n : UInt32) :
    wp (filereadInode f dst n) (fun x _ => Fitting dst n.toNat x.1) (fun _ => True) s := by
  rw [filereadInode, wp_bind]
  refine (wp_any _ _).post fun _ s1 _ => ?_
  rw [wp_bind]
  refine (readi_fits f.off n).post fun r s2 hr => ?_
  rw [wp_bind]
  exact (wp_any _ _).post fun _ _ _ => hr

/-- Reading from an open file whose inode can be locked: as many bytes as there are, or as the user can take. -/
lemma filereadInode_spec {s : State} {fl : File} (dst : Nat → Bool) (n : UInt32) (h : Consistent s) (hi : Held s fl.ip)
    (hfree : (s.itable fl.ip).lock = none) (hh : HoleFree s (s.itable fl.ip).inum) :
    ∃ r out s', filereadInode fl dst n s = .ok (((r, out), fl.moved r), s') ∧
      (r = out.length ∧ out.length = readCount (s.dinode (s.itable fl.ip).inum).size fl.off n ∨
        r = -1 ∧ out.length < readCount (s.dinode (s.itable fl.ip).inum).size fl.off n ∧ dst out.length = false) := by
  have hwp : wp (filereadInode fl dst n) (fun x _ => x.2 = fl.moved x.1.1 ∧
      (x.1.1 = x.1.2.length ∧ x.1.2.length = readCount (s.dinode (s.itable fl.ip).inum).size fl.off n ∨
        x.1.1 = -1 ∧ x.1.2.length < readCount (s.dinode (s.itable fl.ip).inum).size fl.off n ∧
          dst x.1.2.length = false)) (fun _ => False) s := by
    rw [filereadInode, wp_bind]
    refine (ilock_free h hi hfree).post fun _ s1 h1 => ?_
    have hu := Unchanged.of_blocks h1.sb h1.blocks (s.itable fl.ip).inum
    have hd := (h1.consistent.synced _ h1.held).2
    have hh1 : HoleFree s1 (s1.itable fl.ip).inum := by rw [h1.inum]; exact hu.holeFree hh
    rw [wp_bind]
    refine (readi_spec h1.consistent h1.held (fun k hk => hh1.byte (hd ▸ hk)) fl.off n).post fun r s2 hr => ?_
    obtain ⟨rfl, hr⟩ := hr
    rw [hd, h1.inum, hu.dinode] at hr
    obtain ⟨d, hentry⟩ := h1.entry
    have hmine : ¬ ((s2.itable fl.ip).lock ≠ some s2.me.pid ∨ (s2.itable fl.ip).ref < 1) := by
      rw [hentry, h1.me]
      have := h1.ref_pos
      simp only [ne_eq, not_true, false_or]
      omega
    simp only [iunlock, wp_bind, wp_inode, wp_reads, if_neg hmine, releasesleep, wp_setInode, wp_pure]
    refine ⟨rfl, hr.imp_left fun e => ?_⟩
    subst e
    simp [State.bytes]
  obtain ⟨⟨⟨r, out⟩, f'⟩, s', hrun, hf, hr⟩ := hwp.returns
  exact ⟨r, out, s', hf ▸ hrun, hr⟩

/-! ### Pipes and the console -/

lemma readLoop_bound (copyout : Nat → Bool) (rest i : Nat) (pi : Ipc.Pipe) :
    (readLoop copyout rest i pi).2.1.length ≤ rest ∧
      ∀ r, (readLoop copyout rest i pi).2.2 = .ret r → r ≤ ((i + rest : Nat) : Int) := by
  induction rest generalizing i pi with
  | zero =>
    refine ⟨Nat.le_refl 0, fun r hr => ?_⟩
    cases hr
    exact Int.le_refl _
  | succ rest ih =>
    rw [readLoop]
    split
    · refine ⟨Nat.zero_le _, fun r hr => ?_⟩
      cases hr
      omega
    · split
      · refine ⟨Nat.succ_le_succ (Nat.zero_le _), fun r hr => ?_⟩
        cases hr
        omega
      · obtain ⟨hlen, hret⟩ := ih (i + 1) pi.remove
        refine ⟨Nat.succ_le_succ hlen, fun r hr => ?_⟩
        have := hret r hr
        omega

lemma piperead_bound (copyout : Nat → Bool) (killed : Bool) (n : Nat) (pi : Ipc.Pipe) :
    (piperead copyout killed n pi).2.1.length ≤ n ∧
      ∀ r, (piperead copyout killed n pi).2.2 = .ret r → r ≤ (n : Int) := by
  rw [piperead]
  split
  · split
    · refine ⟨Nat.zero_le _, fun r hr => ?_⟩
      cases hr
      omega
    · exact ⟨Nat.zero_le _, fun r hr => by cases hr⟩
  · have h := readLoop_bound copyout n 0 pi
    rwa [Nat.zero_add] at h

/-- What a process that reads from the console has got, at most `N` bytes, and never more than it has asked
for. -/
def GotAtMost (N : Nat) : Dev.Reader → Prop
  | .idle (some (.ret got)) => got.length ≤ N
  | .idle _ => True
  | .reading _ n got => got.length + n ≤ N

lemma consoleread_bound (copyout : Nat → Bool) (killed : Bool) (target n N : Nat) (got : List UInt8)
    (s : Dev.Cons) (h : got.length + n ≤ N) :
    GotAtMost N ((consoleread copyout killed target n got s).2.next target) := by
  induction n generalizing got s with
  | zero => exact h
  | succ n ih =>
    rw [consoleread]
    split
    · split
      · exact trivial
      · exact h
    · dsimp only
      split
      · exact (Nat.le_add_right _ _).trans h
      · split
        · exact (Nat.le_add_right _ _).trans h
        · have hlen (c : UInt8) : (got ++ [c]).length = got.length + 1 := length_append
          split
          · change (got ++ [_]).length ≤ N
            rw [hlen]
            omega
          · refine ih _ _ ?_
            rw [hlen]
            omega

section

variable {P : Type} [DecidableEq P] {t t' : Dev.State P Dev.Cons} {p : P} {N : Nat}

lemma GotAtMost.step {e : Dev.Event P} (h : GotAtMost N (t.readers p)) (he : ∀ m, e ≠ .callRead p m)
    (hs : step t e = .ok t') : GotAtMost N (t'.readers p) := by
  cases e with
  | consoleintr c =>
    cases hs
    exact h
  | callRead q m =>
    have hne : p ≠ q := fun e => he m (by rw [e])
    simp only [Dev.step, Dev.stepWith] at hs
    split at hs
    · cases hs
      simp only [update_of_ne hne]
      exact h
    · cases hs
  | consoleread q copyout killed =>
    simp only [Dev.step, Dev.stepWith] at hs
    split at hs
    · cases hs
    · rename_i target n got hq
      cases hs
      by_cases hpq : p = q
      · subst hpq
        rw [hq] at h
        simp only [update_self]
        exact consoleread_bound _ _ _ _ _ _ _ h
      · simp only [update_of_ne hpq]
        exact h

/-- From the call on, as long as the process does not make another. -/
lemma GotAtMost.run {n : Int} {t₀ : Dev.State P Dev.Cons} (hcall : Dev.step t₀ (.callRead p n) = .ok t)
    (hr : Reach Dev.step (fun _ e => ∀ m, e ≠ .callRead p m) t t') : GotAtMost n.toNat (t'.readers p) := by
  refine hr.invariant (I := fun t => GotAtMost n.toNat (t.readers p)) ?_ fun h he hs => h.step he hs
  simp only [Dev.step, Dev.stepWith] at hcall
  split at hcall
  · cases hcall
    simp only [update_self]
    exact Nat.le_of_eq (Nat.zero_add _)
  · cases hcall

end

/-- **A read never transfers more than it is asked for**: not from a pipe, nor from the console, whatever the
length, and from an inode if the length is not negative.  With a negative length it transfers nothing from an inode
exactly if nothing is left behind the offset, the sum of both wraps, or the user cannot take the first byte. -/
theorem read_bounded (n : Int32) :
    (∀ copyout killed pi, ((Ipc.piperead copyout killed n.toInt.toNat pi).2.1.length : Int) ≤ max n.toInt 0 ∧
      ∀ r, (Ipc.piperead copyout killed n.toInt.toNat pi).2.2 = .ret r → r ≤ max n.toInt 0) ∧
    (∀ (P : Type) [DecidableEq P] (p : P) (t₀ t t' : Dev.State P Dev.Cons),
      Dev.step t₀ (.callRead p n.toInt) = .ok t →
      Reach Dev.step (fun _ e => ∀ m, e ≠ .callRead p m) t t' → ∀ got,
      (t'.readers p = .idle (some (.ret got)) ∨ ∃ target k, t'.readers p = .reading target k got) →
        (got.length : Int) ≤ max n.toInt 0) ∧
    (0 ≤ n.toInt → ∀ f dst s r out f' s', filereadInode f dst n.toUInt32 s = .ok (((r, out), f'), s') →
      (out.length : Int) ≤ max n.toInt 0 ∧ r ≤ max n.toInt 0) ∧
    (n.toInt < 0 → ∀ f dst s, Consistent s → Held s f.ip → (s.itable f.ip).lock = none →
      HoleFree s (s.itable f.ip).inum → ∃ r out f' s', filereadInode f dst n.toUInt32 s = .ok (((r, out), f'), s') ∧
        ((out.length : Int) ≤ max n.toInt 0 ∧ r ≤ max n.toInt 0 ↔ (s.dinode (s.itable f.ip).inum).size ≤ f.off ∨
          0 ≤ f.off.toNat + n.toInt ∨ dst 0 = false)) := by
  refine ⟨fun copyout killed pi => ?_, fun P _ p t₀ t t' hcall hr got hgot => ?_,
    fun hn f dst s r out f' s' hrun => ?_, fun hn f dst s hc hi hfree hh => ?_⟩
  · obtain ⟨hlen, hret⟩ := piperead_bound copyout killed n.toInt.toNat pi
    refine ⟨by omega, fun r hr => ?_⟩
    have := hret r hr
    omega
  · have h := GotAtMost.run hcall hr
    rcases hgot with e | ⟨target, k, e⟩
    · rw [e] at h
      have : got.length ≤ n.toInt.toNat := h
      omega
    · rw [e] at h
      have : got.length + k ≤ n.toInt.toNat := h
      omega
  · obtain ⟨h₁, h₂, -⟩ := (filereadInode_fits f dst s n.toUInt32).ok hrun
    have hnat := toNat_toUInt32 n
    rw [if_pos hn] at hnat
    simp only at h₁ h₂
    omega
  · obtain ⟨r, out, s', hrun, hr⟩ := filereadInode_spec dst n.toUInt32 hc hi hfree hh
    have hok := ((filereadInode_fits f dst s n.toUInt32).ok hrun).2.2 0
    refine ⟨r, out, _, s', hrun, ?_⟩
    have hnat := toNat_toUInt32 n
    have hmin := n.le_toInt
    have hoff := f.off.toNat_lt
    rw [if_neg (by omega)] at hnat
    rw [readCount, Nat.min_def] at hr
    rw [UInt32.le_iff_toNat_le, show max n.toInt 0 = 0 from max_eq_right hn.le]
    by_cases hz : out.length = 0
    · rw [hz] at hr ⊢
      cases hdst : dst 0 <;> split_ifs at hr <;> simp_all <;> omega
    · refine iff_of_false (fun h => by omega) ?_
      rw [hok (Nat.pos_of_ne_zero hz)]
      rintro (h | h | h)
      · split_ifs at hr <;> omega
      · split_ifs at hr <;> omega
      · cases h

/-- A read of `-1` bytes at the beginning of a file of three returns all of them. -/
theorem read_negative : ∃ t', performAll [
      (0, .open (some [97]) (O_CREATE ||| O_WRONLY)), (0, .write firstFd (fun _ => some 7) 3 noDrivers),
      (0, .close firstFd), (0, .open (some [97]) O_RDONLY),
      (0, .read firstFd (fun _ => true) (-1 : Int32).toUInt32 noDrivers)] boot = .ok ([0, 3, 0, 0, 3], t') :=
  Outcome.returns_of_test (by decide +kernel)

end FypOs.Fs
