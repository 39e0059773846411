import FypOs.Fs.Exact
import FypOs.Fs.Rounds
import FypOs.Fs.Runs

/-!
# Fs — several writers of one file

Calls of `filewrite` let go of the inode between two chunks, so that chunks of different calls come
in any order.

* `shared_descriptor`: calls through one open file.  The offset is read and moved on while the inode
  is locked, so that no chunk is written over another.
-/

namespace FypOs.Fs

open Lib Prog Function List

section

variable {P : Type} {t t' : Sys P} {f : Fin NFILE} {src : Nat → Option UInt8} {r : Int}
  {w : List UInt8} {job : Job P}

/-- The inode that an open file refers to. -/
def Sys.inumOf (t : Sys P) (f : Fin NFILE) : Nat := (t.fs.itable (t.ftable f).ip).inum

/-- The file system is consistent, and the file refers to an inode of it. -/
structure Ready (f : Fin NFILE) (t : Sys P) : Prop where
  consistent : Consistent t.fs
  range : InRange t.fs (t.ftable f).ip

/-- A step of somebody else, who does not use the file and does not change its inode. -/
structure Spares (f : Fin NFILE) (t t' : Sys P) : Prop where
  ready : Ready f t'
  off : (t'.ftable f).off = (t.ftable f).off
  inum : t'.inumOf f = t.inumOf f
  unchanged : Unchanged t.fs t'.fs (t.inumOf f)

/-! ### A round -/

lemma File.moved_ip (fl : File) (r : Int) : (fl.moved r).ip = fl.ip := by
  rw [File.moved]
  split <;> rfl

lemma File.moved_off {fl : File} (h : fl.off.toNat + r.toNat < 2 ^ 32) :
    (fl.moved r).off.toNat = fl.off.toNat + r.toNat := by
  rw [File.moved]
  split
  · have hr : r.toNat < 2 ^ 32 := Nat.lt_of_le_of_lt (Nat.le_add_left ..) h
    rw [UInt32.toNat_add, UInt32.toNat_ofNat_of_lt' hr, Nat.mod_eq_of_lt h]
  · have : r.toNat = 0 := by omega
    rw [this, Nat.add_zero]

/-- A round splices what it writes into the contents of the inode and moves the offset behind it, if
nothing is left behind in front of the end of the file. -/
lemma Rounded.spliced {i n1 : Nat} (h : Rounded t t' f src i n1 r) (hn : n1 < 2 ^ 32)
    (hr : r = n1 ∨ (t.ftable f).off = (t.fs.dinode (t.inumOf f)).size) :
    let new := (List.range r.toNat).map fun k => (src (i + k)).getD 0
    t'.fs.contents (t.inumOf f) = splice (t.fs.contents (t.inumOf f)) (t.ftable f).off.toNat new ∧
      (t'.ftable f).off.toNat = (t.ftable f).off.toNat + new.length ∧
      (new = [] ∨ (t.ftable f).off.toNat ≤ (t.fs.contents (t.inumOf f)).length) := by
  obtain ⟨fs, hw, rfl⟩ := h
  intro new
  have hlen : new.length = r.toNat := by rw [length_map, length_range]
  have hoff := Sys.setFile_self (t.setFs fs) (f := f) (·.moved r)
  rw [hoff]
  rcases hw.result with ⟨hneg, hu, -⟩ | ⟨hacc, tot, p, htot, hle, ⟨a, size, hd, hsize⟩, hbyte, -⟩
  · have hnil : new = [] := length_eq_zero_iff.mp (by rw [hlen, hneg]; rfl)
    have hz : r.toNat = 0 := by rw [← hlen, hnil]; rfl
    rw [hnil, splice_nil]
    refine ⟨hu.contents, ?_, .inl rfl⟩
    rw [File.moved_off (by rw [hz]; exact (t.ftable f).off.toNat_lt), hz]
    rfl
  · rw [UInt32.toNat_ofNat_of_lt' hn] at hle
    have hmax := hacc.2
    have hb : MAXFILE * BSIZE < 2 ^ 32 := by decide
    rw [UInt32.toNat_ofNat_of_lt' hn] at hmax
    have hz : r.toNat = tot := by rw [htot]; rfl
    refine ⟨?_, ?_, .inr (by rw [length_contents]; exact hacc.1)⟩
    · have hp : p = 0 ∨ (t.fs.dinode (t.inumOf f)).size.toNat ≤ (t.ftable f).off.toNat + tot := by
        rcases hr with hr | hr
        · left
          omega
        · right
          rw [hr]
          omega
      have hsize' : (fs.dinode (t.inumOf f)).size.toNat =
          max (t.fs.dinode (t.inumOf f)).size.toNat ((t.ftable f).off.toNat + tot) :=
        (congrArg (·.size.toNat) hd).trans hsize
      change fs.contents _ = splice _ _ ((List.range r.toNat).map _)
      rw [hz]
      exact contents_splice hsize' hbyte hacc.1 hp
    · exact hlen ▸ File.moved_off (by change (t.ftable f).off.toNat + r.toNat < _; omega)

lemma Rounded.ready {i n1 : Nat}
    (h : Rounded t t' f src i n1 r) (ht : Ready f t) : Ready f t' ∧ t'.inumOf f = t.inumOf f := by
  obtain ⟨fs, hw, rfl⟩ := h
  have hoff := Sys.setFile_self (t.setFs fs) (f := f) (·.moved r)
  have hip : (((t.setFs fs).setFile f (·.moved r)).ftable f).ip = (t.ftable f).ip := by
    rw [hoff, File.moved_ip]
    rfl
  obtain ⟨href, hinum, -, -⟩ := hw.table (t.ftable f).ip
  refine ⟨⟨hw.consistent, ?_⟩, ?_⟩
  · rw [hip]
    change 0 < (fs.itable _).ref → 0 < (fs.itable _).inum ∧ (fs.itable _).inum < fs.sb.ninodes
    rw [href, hinum, hw.sb]
    exact ht.range
  · rw [Sys.inumOf, hip]
    exact hinum

/-! ### Through one open file -/

/-- What has become of a call. -/
structure Job.Fair (f : Fin NFILE) (job : Job P) (written : List UInt8) : Prop where
  file : job.file = f
  le : (job.i : Int) ≤ max job.n 0
  written : written = job.bytes 0 job.i
  ret : ∀ r, job.ret = some r → r = job.n ∧ job.i = job.n ∨ r = -1 ∧ job.n < 0

lemma Job.Fair.round (h : job.Fair f w) (hret : job.ret = none)
    (hlt : (job.i : Int) < job.n) (hr : r = job.n1) : (job.next r).Fair f (w ++ job.bytes job.i r.toNat) := by
  have hle : (job.i : Int) + job.n1 ≤ job.n := by
    have : job.n1 ≤ job.n.toNat - job.i := Nat.min_le_left ..
    omega
  have hnext : job.next r = { job with i := job.i + job.n1 } := by rw [Job.next, if_neg (not_not.mpr hr)]
  rw [hnext]
  refine ⟨h.file, ?_, ?_, fun q hq => ?_⟩
  · change ((job.i + job.n1 : Nat) : Int) ≤ max job.n 0
    omega
  · rw [h.written, hr, Int.toNat_natCast]
    exact (congrArg (job.bytes 0 job.i ++ job.bytes · job.n1) (Nat.zero_add _).symm).trans
      (job.bytes_append 0 job.i job.n1)
  · exact absurd (hret.symm.trans hq) nofun

lemma Job.Fair.returns (h : job.Fair f w) (hle : job.n ≤ job.i) :
    Job.Fair f { job with ret := some (if job.i = job.n then job.n else -1) } w := by
  refine ⟨h.file, h.le, h.written, fun r hr => ?_⟩
  have := h.le
  cases hr
  by_cases he : (job.i : Int) = job.n
  · exact .inl ⟨if_pos he, he⟩
  · have hneg : job.n < 0 := by omega
    exact .inr ⟨if_neg he, hneg⟩

namespace Traffic

variable {C : Type} {t₀ : Sys P} {T T' : Traffic P C}

/-- What has been written through `f`, from the state `t₀` on. -/
structure Spliced (f : Fin NFILE) (t₀ : Sys P) (T : Traffic P C) : Prop where
  ready : Ready f T.sys
  inum : T.sys.inumOf f = t₀.inumOf f
  contents : T.sys.fs.contents (t₀.inumOf f) =
    splice (t₀.fs.contents (t₀.inumOf f)) (t₀.ftable f).off.toNat T.data
  off : (T.sys.ftable f).off.toNat = (t₀.ftable f).off.toNat + T.data.length
  within : T.data = [] ∨ (t₀.ftable f).off.toNat ≤ (t₀.fs.contents (t₀.inumOf f)).length

lemma Spliced.other (h : Spliced f t₀ T) {t : Sys P} (hs : Spares f T.sys t) :
    Spliced f t₀ { T with sys := t } where
  ready := hs.ready
  inum := hs.inum.trans h.inum
  contents := by
    rw [← h.inum, hs.unchanged.contents, h.inum]
    exact h.contents
  off := by
    rw [hs.off]
    exact h.off
  within := h.within

variable [DecidableEq P] {job : Job P} {c : C}

lemma Spliced.round (h : Spliced f t₀ T) {r : Int} {t' : Sys P}
    {calls : C → Option (Job P)} (hfile : job.file = f) (hround : job.round T.sys = .ok (r, t'))
    (hr : r = job.n1) : Spliced f t₀ ⟨t', calls, T.log ++ [(c, job.bytes job.i r.toNat)]⟩ := by
  have hrounded := job.rounded h.ready.consistent (by rw [hfile]; exact h.ready.range) hround
  rw [hfile] at hrounded
  have hn : job.n1 < 2 ^ 32 := Nat.lt_of_le_of_lt job.n1_le (by decide)
  obtain ⟨hcontents, hoff, hwithin⟩ := hrounded.spliced hn (.inl hr)
  obtain ⟨hready, hinum⟩ := hrounded.ready h.ready
  rw [h.inum] at hcontents hwithin hinum
  change t'.fs.contents _ = splice _ _ (job.bytes job.i r.toNat) at hcontents
  change _ = _ + (job.bytes job.i r.toNat).length at hoff
  change job.bytes job.i r.toNat = [] ∨ _ at hwithin
  rw [h.contents, h.off] at hcontents
  refine ⟨hready, hinum, ?_, ?_, ?_⟩
  · rw [data_append, hcontents]
    rcases h.within with hnil | hle
    · rw [hnil, splice_nil, nil_append, length_nil, Nat.add_zero]
    · exact splice_splice hle
  · rw [data_append, length_append, ← Nat.add_assoc, ← h.off]
    exact hoff
  · rw [data_append]
    rcases h.within with hnil | hle
    · rw [hnil, nil_append]
      rw [h.off, h.contents, hnil, splice_nil, length_nil, Nat.add_zero] at hwithin
      exact hwithin
    · exact .inr hle

variable [DecidableEq C]

/-- The calls write through `f`, no call of `writei` fails, and nobody else uses the inode. -/
def Through (f : Fin NFILE) (T : Traffic P C) : Event P C → Prop
  | .call _ _ f' _ _ => f' = f
  | .round c => ∀ job r t', T.calls c = some job → (job.i : Int) < job.n →
      job.round T.sys = .ok (r, t') → r = job.n1
  | .other t => Spares f T.sys t

/-- The state of every call is right. -/
structure Fair (f : Fin NFILE) (T : Traffic P C) : Prop where
  call : ∀ c job, T.calls c = some job → job.Fair f (T.dataOf c)
  idle : ∀ c, T.calls c = none → T.dataOf c = []

omit [DecidableEq P] in
lemma Fair.update (h : Fair f T) {t : Sys P} {log : List (C × List UInt8)}
    (hjob : job.Fair f (dataOf ⟨t, T.calls, log⟩ c))
    (hlog : ∀ c', c' ≠ c → dataOf ⟨t, T.calls, log⟩ c' = T.dataOf c') :
    Fair f ⟨t, update T.calls c (some job), log⟩ := by
  refine ⟨fun c' job' hc => ?_, fun c' hc => ?_⟩
  · by_cases he : c' = c
    · subst he
      cases (update_self c' (some job) T.calls).symm.trans hc
      exact hjob
    · change job'.Fair f (dataOf ⟨t, T.calls, log⟩ c')
      rw [hlog c' he]
      exact h.call c' job' ((update_of_ne he (some job) T.calls).symm.trans hc)
  · by_cases he : c' = c
    · subst he
      exact absurd ((update_self c' (some job) T.calls).symm.trans hc) nofun
    · change dataOf ⟨t, T.calls, log⟩ c' = []
      rw [hlog c' he]
      exact h.idle c' ((update_of_ne he (some job) T.calls).symm.trans hc)

/-- **A step** of calls through `f`. -/
lemma through_step {e : Event P C} (hs : Spliced f t₀ T) (hf : Fair f T) (he : Through f T e)
    (hstep : T.step e = .ok T') : Spliced f t₀ T' ∧ Fair f T' := by
  cases moved_of_step hstep with
  | call hc hw ht =>
    refine ⟨⟨hs.ready, hs.inum, hs.contents, hs.off, hs.within⟩, hf.update ?_ fun _ _ => rfl⟩
    exact ⟨he, by simp, hf.idle _ hc, nofun⟩
  | round hc hret hlt hround =>
    have hr := he _ _ _ hc hlt hround
    have hjob := hf.call _ _ hc
    refine ⟨hs.round hjob.file hround hr, hf.update ?_ fun c' hne => ?_⟩
    · rw [dataOf_append_self]
      exact hjob.round hret hlt hr
    · exact dataOf_append_of_ne T _ _ hne _
  | ret hc hret hle =>
    refine ⟨⟨hs.ready, hs.inum, hs.contents, hs.off, hs.within⟩, hf.update ?_ fun _ _ => rfl⟩
    exact (hf.call _ _ hc).returns hle
  | other => exact ⟨hs.other he, ⟨hf.call, hf.idle⟩⟩

end Traffic

open Traffic in
/-- **No lost update through a shared descriptor.**  Calls of `filewrite` on one open file, with any
lengths and in any order of their rounds, if no `writei` fails and nobody else writes the inode:

* from the offset of the file on, the contents are what has been written, in the order of the
  locks; what stood further behind in the file still stands there;
* the offset is behind what has been written;
* the chunks of each call are its bytes, in order, all of them when it has returned. -/
theorem shared_descriptor {C : Type} [DecidableEq P] [DecidableEq C] (t₀ : Sys P) (f : Fin NFILE)
    (T : Traffic P C) (h₀ : Ready f t₀) (hr : Reach step (Through f) (start t₀) T) :
    T.sys.fs.contents (t₀.inumOf f) = splice (t₀.fs.contents (t₀.inumOf f)) (t₀.ftable f).off.toNat T.data ∧
      (T.sys.ftable f).off.toNat = (t₀.ftable f).off.toNat + T.data.length ∧
      ∀ c job, T.calls c = some job → T.dataOf c = job.bytes 0 job.i ∧
        ∀ r, job.ret = some r → r = job.n ∧ job.i = job.n ∨ r = -1 ∧ job.n < 0 := by
  have hstart : Spliced f t₀ (start t₀ : Traffic P C) ∧ Fair f (start t₀ : Traffic P C) :=
    ⟨⟨h₀, rfl, splice_nil.symm, rfl, .inl rfl⟩, ⟨nofun, fun _ _ => rfl⟩⟩
  obtain ⟨hs, hf⟩ := hr.invariant (I := fun T => Spliced f t₀ T ∧ Fair f T) hstart
    fun h he hstep => through_step h.1 h.2 he hstep
  refine ⟨hs.contents, hs.off, fun c job hc => ?_⟩
  have hjob := hf.call c job hc
  exact ⟨hjob.written, hjob.ret⟩

end

/-! ### Two callers -/

/-- Process `e.1` opens a file, writes to it or closes it. -/
def Plain {P : Type} (t : Sys P) (e : P × SysCall P) : Bool :=
  (t.tasks e.1).used && match e.2 with
    | .open .. | .write .. | .close .. => true
    | _ => false

/-- What is held is counted along such calls. -/
lemma good_of_plain {P : Type} [DecidableEq P] [Fintype P] {t t' : Sys P} (h : ∀ p, Good p (t.tasks p).hold t)
    (hr : Reach callStep (fun t e => Plain t e = true) t t') : ∀ p, Good p (t'.tasks p).hold t' := by
  refine hr.invariant (I := fun t => ∀ p, Good p (t.tasks p).hold t) h fun {t e t'} hi he hs q => ?_
  obtain ⟨p, c⟩ := e
  obtain ⟨x, hx, rfl⟩ := Outcome.map_eq_ok hs
  rw [Plain, Bool.and_eq_true] at he
  have hfits : c.Fits (t.switch p) := by
    cases c <;> first | trivial | cases he.2
  exact ((perform_good c hfits rfl he.1 ((hi p).switch p)).ok hx).good.of_task q

lemma ready_of_good {P : Type} [DecidableEq P] [Fintype P] {t : Sys P} {p : P} {a : Hold} (h : Good p a t)
    (f : Fin NFILE) : Ready f t :=
  ⟨h.covers.sound.consistent, h.covers.sound.range _⟩

def firstFile : Fin NFILE := ⟨0, by decide⟩

namespace Traffic

/-- Calls through `f` and their rounds, each of which writes its whole chunk. -/
def Whole {C : Type} (f : Fin NFILE) (T : Traffic (Fin 2) C) : Event (Fin 2) C → Bool
  | .call _ _ f' _ _ => f' = f
  | .round c => (T.calls c).all fun job => !decide ((job.i : Int) < job.n) ||
      (job.round T.sys).test fun x => x.1 = job.n1
  | .other _ => false

lemma through_of_whole {C : Type} [DecidableEq C] {f : Fin NFILE} {T : Traffic (Fin 2) C} {e : Event (Fin 2) C}
    (h : T.Whole f e = true) : Through f T e := by
  cases e with
  | call c p f' src n =>
    rw [Whole, decide_eq_true_eq] at h
    exact h
  | round c =>
    intro job r t' hc hlt hround
    rw [Whole, hc, Option.all_some, Bool.or_eq_true, Bool.not_eq_true', decide_eq_false_iff_not, hround] at h
    rcases h with h | h
    · exact absurd hlt h
    · exact of_decide_eq_true h
  | other t => cases h

end Traffic

open Traffic in
/-- A file of three bytes; a call of more than a chunk, and another one that comes between its rounds. -/
theorem shared_descriptor_append : ∃ (t₀ : Sys (Fin 2)) (T : Traffic (Fin 2) Bool),
    Reach callStep (fun t e => Plain t e = true) boot t₀ ∧ Reach step (Through firstFile) (start t₀) T ∧
    T.log.map (fun x => (x.1, x.2.length)) = [(false, 3072), (true, 1), (false, 8)] ∧
    (t₀.fs.contents 2).length = 3 ∧ T.sys.fs.contents 2 = t₀.fs.contents 2 ++ T.data := by
  have htest : runTest callStep (fun t e => Plain t e = true) boot [
      (0, .open (some [97]) (O_CREATE ||| O_WRONLY)), (0, .write firstFd (fun _ => some 7) 3 noDrivers)] (fun t₀ =>
      decide ((t₀.ftable firstFile).off = 3 ∧ t₀.inumOf firstFile = 2 ∧ (t₀.fs.dinode 2).size = 3) &&
      runTest step (fun T e => Whole firstFile T e = true) (start t₀) [
        .call false 0 firstFile (fun _ => some 8) 3080, .call true 1 firstFile (fun _ => some 9) 1,
        .round false, .round true, .round false, .round false, .round true] fun T : Traffic (Fin 2) Bool =>
        T.log.map (fun x => (x.1, x.2.length)) = [(false, 3072), (true, 1), (false, 8)]) = true := by
    decide +kernel
  obtain ⟨t₀, h₀, htest⟩ := Reach.of_runTest htest
  obtain ⟨hfile, htest⟩ := Bool.and_eq_true_iff.mp htest
  obtain ⟨hoff, hinum, hsize⟩ := of_decide_eq_true hfile
  obtain ⟨T, hT, hlog⟩ := Reach.of_runTest htest
  have hthrough := hT.mono fun _ _ he => through_of_whole he
  have hlen : (t₀.fs.contents 2).length = 3 := by
    rw [length_contents, hsize]
    rfl
  refine ⟨t₀, T, h₀, hthrough, of_decide_eq_true hlog, hlen, ?_⟩
  have h := (shared_descriptor t₀ firstFile T (ready_of_good (good_of_plain boot_ordered.good h₀ 0) _) hthrough).1
  rw [hinum, hoff] at h
  refine h.trans ?_
  have e : (3 : UInt32).toNat = (t₀.fs.contents 2).length := hlen.symm
  rw [e, splice_length]

open Traffic in
/-- A descriptor in front of the end of the file, as another process has written: what stood behind what is written still
stands there. -/
theorem shared_descriptor_tail : ∃ (t₀ : Sys (Fin 2)) (T : Traffic (Fin 2) Unit),
    Reach callStep (fun t e => Plain t e = true) boot t₀ ∧ Reach step (Through firstFile) (start t₀) T ∧
    (∃ job, T.calls () = some job ∧ job.ret = some 1) ∧ t₀.inumOf firstFile = 2 ∧
    T.sys.fs.contents 2 ≠ (t₀.fs.contents 2).take (t₀.ftable firstFile).off.toNat ++ T.data := by
  have htest : runTest callStep (fun t e => Plain t e = true) boot [
      (0, .open (some [97]) (O_CREATE ||| O_WRONLY)), (1, .open (some [97]) O_WRONLY),
      (1, .write firstFd (fun _ => some 7) 3 noDrivers)] (fun t₀ =>
      decide ((t₀.ftable firstFile).off = 0 ∧ t₀.inumOf firstFile = 2) &&
      runTest step (fun T e => Whole firstFile T e = true) (start t₀) [
        .call () 0 firstFile (fun _ => some 9) 1, .round (), .round ()] fun T : Traffic (Fin 2) Unit =>
        (T.calls ()).any (fun job => job.ret = some 1) && decide ((T.sys.fs.dinode 2).size = 3 ∧ T.data.length = 1)) =
      true := by
    decide +kernel
  obtain ⟨t₀, h₀, htest⟩ := Reach.of_runTest htest
  obtain ⟨hfile, htest⟩ := Bool.and_eq_true_iff.mp htest
  obtain ⟨hoff, hinum⟩ := of_decide_eq_true hfile
  obtain ⟨T, hT, htest⟩ := Reach.of_runTest htest
  obtain ⟨hret, hsize⟩ := Bool.and_eq_true_iff.mp htest
  obtain ⟨hsize, hdata⟩ := of_decide_eq_true hsize
  rw [Option.any_eq_true] at hret
  obtain ⟨job, hjob, hret⟩ := hret
  refine ⟨t₀, T, h₀, hT.mono fun _ _ he => through_of_whole he, ⟨job, hjob, of_decide_eq_true hret⟩, hinum, fun h => ?_⟩
  have hlen := congrArg List.length h
  rw [length_contents, hsize, hoff, UInt32.toNat_zero, take_zero, nil_append, hdata] at hlen
  exact absurd hlen (by decide)

end FypOs.Fs
